import LabPlan.Proofs.Types.Registry
import LabPlan.Value.Within

/-! # Declarations among others

What a declared name stands for depends on its definition and on those of the names that it leads
to.  Where the declarations stand, and what else is declared beside them, does not matter.  A table
that resolution has built is compared with another registry type by type, in the order in which the
table was built, so it is never asked in which order the other one was. -/

namespace LabPlan

namespace Registry

variable {es fs : Entries} {decls decls' : Declarations} {known : Known} {n : String}

/-! ## Tables with distinct names -/

/-- Where names are distinct, what is found under a name is whatever stands there. -/
theorem lookup_eq_some_iff_mem {α : Type} {xs : List (String × α)} (hd : (xs.map Prod.fst).Nodup)
    {a : α} : xs.lookup n = some a ↔ (n, a) ∈ xs := by
  refine ⟨mem_of_lookup, fun h ↦ ?_⟩
  induction xs with
  | nil => exact absurd h List.not_mem_nil
  | cons x xs ih =>
      obtain ⟨m, b⟩ := x
      obtain ⟨hm, hxs⟩ := List.nodup_cons.1 hd
      rcases List.mem_cons.1 h with heq | hmem
      · obtain ⟨rfl, rfl⟩ := Prod.mk.inj heq
        exact List.lookup_cons_self
      · have hne : n ≠ m := by
          rintro rfl
          exact hm (List.mem_map.2 ⟨_, hmem, rfl⟩)
        rw [lookup_cons_of_ne hne, ih hxs hmem]

/-- Names in increasing order do not show the order in which they came. -/
theorem names_eq_of_perm {r s : Registry}
    (h : (r.types.map Prod.fst).Perm (s.types.map Prod.fst)) : r.names = s.names := by
  have hsorted (ns : List String) : (ns.mergeSort fun a b ↦ a ≤ b).Pairwise fun a b ↦ a ≤ b := by
    refine (List.pairwise_mergeSort ?_ ?_ ns).imp of_decide_eq_true
    · intro a b c hab hbc
      exact decide_eq_true (String.le_trans (of_decide_eq_true hab) (of_decide_eq_true hbc))
    · intro a b
      simpa using String.le_total a b
  have hperm : r.names.Perm s.names :=
    (List.mergeSort_perm _ _).trans (h.trans (List.mergeSort_perm _ _).symm)
  exact hperm.eq_of_pairwise (fun _ _ _ _ ↦ String.le_antisymm) (hsorted _) (hsorted _)

/-- Registries in which every name stands for the same type have the same names. -/
theorem names_eq_of_get? {r s : Registry} (hr : (r.types.map Prod.fst).Nodup)
    (hs : (s.types.map Prod.fst).Nodup) (h : r.get? = s.get?) : r.names = s.names := by
  refine names_eq_of_perm ((List.perm_ext_iff_of_nodup hr hs).2 fun n ↦ ?_)
  rw [← lookup_ne_none_iff, ← lookup_ne_none_iff]
  exact not_congr (Eq.congr_left (congrFun h n))

/-! ## What is declared -/

/-- A mapping declares what its entries declare. -/
theorem Declares.mem_iff (h : Declares es decls) {d : Definition} : (n, d) ∈ decls ↔
    ∃ v, (Value.string n, v) ∈ es ∧ Definition.ofValue (some n) v = .ok d := by
  induction h with
  | nil => simp
  | @cons m v d' es decls _ hd _ ih =>
      simp only [List.mem_cons, Prod.mk.injEq, Value.string.injEq, ih]
      constructor
      · rintro (⟨rfl, rfl⟩ | ⟨w, hw, hread⟩)
        · exact ⟨v, .inl ⟨rfl, rfl⟩, hd⟩
        · exact ⟨w, .inr hw, hread⟩
      · rintro ⟨w, ⟨rfl, rfl⟩ | hw, hread⟩
        · exact .inl ⟨rfl, Except.ok.inj (hread.symm.trans hd)⟩
        · exact .inr ⟨w, hw, hread⟩

/-- Distinct keys declare distinct names. -/
theorem Declares.nodup (h : Declares es decls) (hd : es.Distinct) :
    (decls.map Prod.fst).Nodup := by
  induction h with
  | nil => exact List.nodup_nil
  | @cons m v d es decls _ _ h ih =>
      obtain ⟨hne, hd⟩ := List.pairwise_cons.1 hd
      refine List.nodup_cons.2 ⟨fun hm ↦ ?_, ih hd⟩
      obtain ⟨⟨k, d'⟩, hmem, rfl⟩ := List.mem_map.1 hm
      obtain ⟨w, hw, -⟩ := h.mem_iff.1 hmem
      exact absurd (hne _ hw) (by simp [Value.same])

/-- In another order the same definitions are declared in another order. -/
theorem Declares.perm (h : Declares es decls) (hp : es.Perm fs) :
    ∃ decls', Declares fs decls' ∧ decls.Perm decls' := by
  induction hp generalizing decls with
  | nil => exact ⟨decls, h, .refl _⟩
  | cons e _ ih =>
      cases h with
      | cons hb hd h =>
          obtain ⟨decls', h', hperm⟩ := ih h
          exact ⟨_, .cons hb hd h', hperm.cons _⟩
  | swap e f es =>
      cases h with
      | cons hb hd h =>
          cases h with
          | cons hb' hd' h => exact ⟨_, .cons hb' hd' (.cons hb hd h), .swap _ _ _⟩
  | trans _ _ ih ih' =>
      obtain ⟨decls₁, h₁, hperm₁⟩ := ih h
      obtain ⟨decls₂, h₂, hperm₂⟩ := ih' h₁
      exact ⟨decls₂, h₂, hperm₁.trans hperm₂⟩

/-- What a mapping declares is declared in the same way by every larger one with distinct keys. -/
theorem Declares.lookup_of_subset (h : Declares es decls) (h' : Declares fs decls')
    (hd : fs.Distinct) (hsub : es ⊆ fs) {d : Definition} (hn : decls.lookup n = some d) :
    decls'.lookup n = some d := by
  obtain ⟨v, hv, hread⟩ := h.mem_iff.1 (mem_of_lookup hn)
  exact (lookup_eq_some_iff_mem (h'.nodup hd)).2 (h'.mem_iff.2 ⟨v, hsub hv, hread⟩)

/-- Where keys are distinct, the order of the declarations does not matter. -/
theorem Declares.lookup_eq_of_perm (h : Declares es decls) (h' : Declares fs decls')
    (hd : es.Distinct) (hp : es.Perm fs) (n : String) : decls.lookup n = decls'.lookup n := by
  obtain ⟨ds, hds, hperm⟩ := h.perm hp
  obtain rfl : ds = decls' := Except.ok.inj
    ((declarations_eq_ok_iff.2 hds).symm.trans (declarations_eq_ok_iff.2 h'))
  have hnodup := h.nodup hd
  have hnodup' := (hperm.map Prod.fst).nodup_iff.1 hnodup
  ext d
  rw [lookup_eq_some_iff_mem hnodup, lookup_eq_some_iff_mem hnodup', hperm.mem_iff]

/-- Every entry declares a name. -/
theorem Declares.exists_declared (h : Declares es decls) {e : Value × Value} (he : e ∈ es) :
    ∃ n d, e.1 = .string n ∧ decls.lookup n = some d := by
  obtain ⟨n, hn, hdeclared⟩ : ∃ n, e.1 = .string n ∧ IsDeclared decls n := by
    induction h with
    | nil => exact absurd he List.not_mem_nil
    | cons _ _ _ ih =>
        rcases List.mem_cons.1 he with rfl | he
        · exact ⟨_, rfl, List.mem_cons_self⟩
        · obtain ⟨n, hn, hdeclared⟩ := ih he
          exact ⟨n, hn, List.mem_cons_of_mem _ hdeclared⟩
  obtain ⟨d, hd⟩ := Option.ne_none_iff_exists'.1 (lookup_ne_none_iff.2 hdeclared)
  exact ⟨n, d, hn, hd⟩

/-! ## What declarations mean -/

/-- Declarations have a meaning by the definitions that are found in them. -/
theorem IsMeaningful.congr (hm : IsMeaningful decls)
    (h : ∀ n, decls.lookup n = decls'.lookup n) : IsMeaningful decls' := by
  have hdeclared : IsDeclared decls = IsDeclared decls' := by
    funext n
    rw [IsDeclared, IsDeclared, ← lookup_ne_none_iff, ← lookup_ne_none_iff, h]
  have hmentions : Mentions decls = Mentions decls' := by
    funext m n
    rw [Mentions, Mentions, hdeclared, h]
  constructor
  case known =>
    intro n d hn
    rw [← h] at hn
    exact hdeclared ▸ hm.known hn
  case acyclic => exact hmentions ▸ hm.acyclic
  case supers =>
    intro n d hn
    rw [← h] at hn
    simpa only [h] using hm.supers hn
  case keys =>
    intro n d hn
    rw [← h] at hn
    exact hm.keys hn

/-- A table agrees with every registry of declarations in which its names have the same
definitions. -/
theorem Founded.extends_types (hf : Founded decls known) {r : Registry}
    (hr : IsRegistryOf decls' r)
    (hle : ∀ n d, decls.lookup n = some d → decls'.lookup n = some d) :
    Extends known r.types := by
  -- By the order in which the table was built: all that a definition mentions was there before it,
  -- and stands for the same types in the registry.
  intro n t ht
  refine hf.lookup_induction (fun b ↦ hr.builtin b) ?_ ht
  intro below n d t _ _ ih _ hd ht _
  obtain ⟨t', hget, -, ht'⟩ := hr.declared (hle n d hd)
  have htype : d.type? r.get? (some n) = some t := Definition.type?_mono ht ih
  exact hget.trans (ht'.symm.trans htype)

/-! ## Registries -/

/-- What declares with a meaning has a registry. -/
theorem Declares.exists_registry (h : Declares es decls) (hm : IsMeaningful decls) :
    ∃ r, ofEntries es = .ok r := by
  obtain ⟨known, hk⟩ := resolveAll_complete hm .builtin fun _ hn ↦ hn
  exact ⟨⟨known⟩, ofEntries_eq_ok_iff.2 ⟨decls, h, hk⟩⟩

/-- A registry is a founded table of what its mapping declares, which has a meaning. -/
theorem exists_founded_of_ofEntries {r : Registry} (h : ofEntries es = .ok r) :
    ∃ decls, Declares es decls ∧ Founded decls r.types ∧ IsMeaningful decls ∧
      IsRegistryOf decls r := by
  obtain ⟨decls, hdecls, hr⟩ := ofEntries_eq_ok_iff.1 h
  obtain ⟨hf, -, hall⟩ := resolveAll_sound .builtin hr
  have hd (n : String) (hn : IsDeclared decls n) := hdecls.isBuiltinName_eq_false hn
  exact ⟨decls, hdecls, hf, hf.isMeaningful hd hall, hf.isRegistryOf hd hall⟩

/-- In another order the declarations have a registry if they have one. -/
theorem exists_registry_iff_of_perm (hd : es.Distinct) (hp : es.Perm fs) :
    (∃ r, ofEntries es = .ok r) ↔ ∃ s, ofEntries fs = .ok s := by
  constructor
  · rintro ⟨r, hr⟩
    obtain ⟨decls, hdecls, -, hm, -⟩ := exists_founded_of_ofEntries hr
    obtain ⟨decls', hdecls', -⟩ := hdecls.perm hp
    exact hdecls'.exists_registry (hm.congr (hdecls.lookup_eq_of_perm hdecls' hd hp))
  · rintro ⟨s, hs⟩
    obtain ⟨decls', hdecls', -, hm, -⟩ := exists_founded_of_ofEntries hs
    obtain ⟨decls, hdecls, -⟩ := hdecls'.perm hp.symm
    exact hdecls.exists_registry
      (hm.congr fun n ↦ (hdecls.lookup_eq_of_perm hdecls' hd hp n).symm)

/-- In another order the declarations have the same types under the same names. -/
theorem get?_eq_of_perm (hd : es.Distinct) (hp : es.Perm fs) {r s : Registry}
    (hr : ofEntries es = .ok r) (hs : ofEntries fs = .ok s) :
    r.names = s.names ∧ r.get? = s.get? := by
  obtain ⟨decls, hdecls, hf, -, hr'⟩ := exists_founded_of_ofEntries hr
  obtain ⟨decls', hdecls', hf', -, hs'⟩ := exists_founded_of_ofEntries hs
  have hlookup := hdecls.lookup_eq_of_perm hdecls' hd hp
  have hget : r.get? = s.get? := by
    funext n
    ext t
    constructor
    · exact hf.extends_types hs' (fun n d h ↦ hlookup n ▸ h) n t
    · exact hf'.extends_types hr' (fun n d h ↦ hlookup n ▸ h) n t
  exact ⟨names_eq_of_get? hr'.nodup hs'.nodup hget, hget⟩

/-- With more declarations, each name that was declared before stands for the same type. -/
theorem exists_get?_of_subset (hd : fs.Distinct) (hsub : es ⊆ fs) {r s : Registry}
    (hr : ofEntries es = .ok r) (hs : ofEntries fs = .ok s) {e : Value × Value} (he : e ∈ es) :
    ∃ n t, e.1 = .string n ∧ r.get? n = some t ∧ s.get? n = some t := by
  obtain ⟨decls, hdecls, hf, -, hr'⟩ := exists_founded_of_ofEntries hr
  obtain ⟨decls', hdecls', -, -, hs'⟩ := exists_founded_of_ofEntries hs
  have hle := hf.extends_types hs' fun n d ↦ hdecls.lookup_of_subset hdecls' hd hsub
  obtain ⟨n, d, hn, hlookup⟩ := hdecls.exists_declared he
  obtain ⟨t, ht, -⟩ := hr'.declared hlookup
  exact ⟨n, t, hn, ht, hle n t ht⟩

/-- Declarations with distinct keys have a registry in every order or in none, and it holds the same
types under the same names.  Those of fewer declarations are the same, if they have a registry of
their own. -/
theorem ofEntries_local (hd : es.Distinct) :
    (∀ fs, es.Perm fs →
      ((∃ r, ofEntries es = .ok r) ↔ ∃ s, ofEntries fs = .ok s) ∧
      ∀ r s, ofEntries es = .ok r → ofEntries fs = .ok s →
        r.names = s.names ∧ r.get? = s.get?) ∧
    ∀ fs, fs ⊆ es → ∀ r s, ofEntries fs = .ok r → ofEntries es = .ok s →
      ∀ e ∈ fs, ∃ n t, e.1 = .string n ∧ r.get? n = some t ∧ s.get? n = some t := by
  refine ⟨fun fs hp ↦ ⟨exists_registry_iff_of_perm hd hp, ?_⟩, ?_⟩
  · exact fun r s ↦ get?_eq_of_perm hd hp
  · exact fun fs hsub r s hr hs e ↦ exists_get?_of_subset hd hsub hr hs

/-- A document in which the first declaration mentions the second. -/
def layered : Entries := [
  (.string "Path", .mapping [(.string "list", .string "Length")]),
  (.string "Length", .mapping [(.string "is_a", .string "number")])]

/-- The type of the second declaration. -/
def lengthTy : Ty := .simple "Length" (Ty.ofBuiltin .number)

/-- The types of both declarations, after the built-in ones. -/
def layeredTypes : Known :=
  ("Path", .list "Path" lengthTy) :: ("Length", lengthTy) :: builtinTypes

theorem declares_length : Declares layered.tail [("Length", .simple (some "number"))] := by
  have h : Definition.outline (some "Length") [(.string "is_a", .string "number")] =
    .ok (.simple (some (.string "number"))) := by rfl
  refine .cons (by decide) ?_ .nil
  rw [Definition.ofValue, h]

theorem declares_layered : Declares layered
    [("Path", .list (.named "Length")), ("Length", .simple (some "number"))] := by
  have h : Definition.outline (some "Path") [(.string "list", .string "Length")] =
    .ok (.list (.string "Length")) := by rfl
  refine .cons (by decide) ?_ declares_length
  rw [Definition.ofValue, h]
  simp [Member.ofValue, Except.map]

theorem resolve_length {path : List String}
    (hd : decls.lookup "Length" = some (.simple (some "number"))) (hp : "Length" ∉ path) :
    resolve decls path builtinTypes "Length" =
      .ok (lengthTy, ("Length", lengthTy) :: builtinTypes) := by
  refine resolve_eq_ok_iff.2 (.inr ⟨rfl, hp, _, builtinTypes, hd, ?_, rfl⟩)
  have hnumber : resolve decls (path ++ ["Length"]) builtinTypes "number" =
    .ok (Ty.ofBuiltin .number, builtinTypes) := resolve_eq_ok_iff.2 (.inl ⟨rfl, rfl⟩)
  rw [build_simple_some, hnumber]
  rfl

theorem ofEntries_length : ofEntries layered.tail = .ok ⟨("Length", lengthTy) :: builtinTypes⟩ := by
  refine ofEntries_eq_ok_iff.2 ⟨_, declares_length, ?_⟩
  rw [List.map_cons, resolveAll, resolve_length rfl List.not_mem_nil]
  rfl

theorem ofEntries_layered : ofEntries layered = .ok ⟨layeredTypes⟩ := by
  refine ofEntries_eq_ok_iff.2 ⟨_, declares_layered, ?_⟩
  have hpath : resolve [("Path", .list (.named "Length")), ("Length", .simple (some "number"))] []
      builtinTypes "Path" = .ok (.list "Path" lengthTy, layeredTypes) := by
    refine resolve_eq_ok_iff.2 (.inr ⟨rfl, List.not_mem_nil, _, _, rfl, ?_, rfl⟩)
    rw [build_list, resolveMember, resolve_length rfl (by decide)]
    rfl
  have hlength : resolve [("Path", .list (.named "Length")), ("Length", .simple (some "number"))] []
      layeredTypes "Length" = .ok (lengthTy, layeredTypes) := resolve_eq_ok_iff.2 (.inl ⟨rfl, rfl⟩)
  simp only [List.map_cons, resolveAll, hpath, hlength, List.map_nil]

theorem distinct_layered : layered.Distinct := by
  simp [layered, Entries.Distinct, Value.same]

/-- The theorem at two declarations, in the other order and with the second one alone. -/
theorem layered_local : layered.Distinct ∧ layered.Perm layered.reverse ∧ layered.tail ⊆ layered ∧
    (∃ r s, ofEntries layered = .ok r ∧ ofEntries layered.reverse = .ok s ∧
      s.get? "Path" = some (.list "Path" lengthTy)) ∧
    ∃ r, ofEntries layered.tail = .ok r ∧ r.get? "Length" = some lengthTy := by
  have hp : layered.Perm layered.reverse := layered.reverse_perm.symm
  have hsub : layered.tail ⊆ layered := List.subset_cons_self _ _
  obtain ⟨hperm, hfewer⟩ := ofEntries_local distinct_layered
  obtain ⟨hex, heq⟩ := hperm _ hp
  obtain ⟨s, hs⟩ := hex.1 ⟨_, ofEntries_layered⟩
  obtain ⟨-, hget⟩ := heq _ s ofEntries_layered hs
  obtain ⟨n, t, hn, ht, ht'⟩ := hfewer _ hsub _ _ ofEntries_length ofEntries_layered
    (.string "Length", .mapping [(.string "is_a", .string "number")]) List.mem_cons_self
  obtain rfl := Value.string.inj hn
  refine ⟨distinct_layered, hp, hsub, ⟨_, s, ofEntries_layered, hs, ?_⟩, _, ofEntries_length, ?_⟩
  · exact (congrFun hget "Path").symm.trans rfl
  · exact ht.trans (ht'.symm.trans rfl)

end Registry

end LabPlan
