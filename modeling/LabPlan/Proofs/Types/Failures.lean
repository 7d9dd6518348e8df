import LabPlan.Proofs.Types.Locality
import LabPlan.Proofs.Types.Reading
import Mathlib

/-! # Why declarations have no registry

Where definitions can be read, they have no registry for one of four reasons: names in a cycle, a
name that is not declared, a super-type that is not simple, or a key that is neither a string nor an
integer.  The names on the path of resolution form a trail, on which the definition of each name
mentions the next one, so a name that is met again closes a cycle with those after it. -/

namespace LabPlan

/-! ## Agreement -/

section Agreement

variable {types types' : String → Option Ty}
  (h : ∀ n t u, types n = some t → types' n = some u → t = u)

include h

/-- A definition describes one type where names do not stand for two. -/
theorem Definition.type?_agree {d : Definition} {name : Option String} {t u : Ty}
    (ht : d.type? types name = some t) (hu : d.type? types' name = some u) : t = u := by
  refine Option.some.inj (ht.symm.trans (Eq.trans ?_ hu))
  refine Definition.type?_congr_both.1 d name fun n hn ↦ ?_
  obtain ⟨a, ha⟩ := Definition.exists_of_type?_both.1 d name t ht n hn
  obtain ⟨b, hb⟩ := Definition.exists_of_type?_both.1 d name u hu n hn
  rw [ha, hb, h n a b ha hb]

theorem Member.type?_agree {m : Member} {t u : Ty} (ht : m.type? types = some t)
    (hu : m.type? types' = some u) : t = u := by
  match m with
  | .named n => exact h n t u ht hu
  | .inline d => exact Definition.type?_agree h ht hu

end Agreement

namespace Registry

variable {es : Entries} {decls : Declarations} {known : Known} {path : List String}
  {name : String} {t u : Ty}

/-! ## Reasons -/

/-- The type that a name stands for by its definition, whether or not there is a registry. -/
inductive Denotes (decls : Declarations) : String → Ty → Prop
  | builtin (b : Builtin) : Denotes decls b.name (.ofBuiltin b)
  | declared {n : String} {d : Definition} {t : Ty} (types : String → Option Ty) :
    decls.lookup n = some d → (∀ m u, types m = some u → Denotes decls m u) →
    d.type? types (some n) = some t → Denotes decls n t

/-- The type that a member describes by the types that the names in it stand for. -/
def Describes (decls : Declarations) (m : Member) (t : Ty) : Prop :=
  ∃ types : String → Option Ty, (∀ n u, types n = some u → Denotes decls n u) ∧
    m.type? types = some t

/-- The names lead from one type back to itself, by way of others that do not come twice: the
definition of each mentions the next one. -/
structure IsCycle (decls : Declarations) (path : List String) : Prop where
  two_le_length : 2 ≤ path.length
  closed : path.head? = path.getLast?
  nodup : path.dropLast.Nodup
  declared : ∀ n ∈ path, IsDeclared decls n
  mentions : path.IsChain (Mentions decls)

/-- The error says of the declarations what is wrong with them. -/
inductive Explains (decls : Declarations) : TypeError → Prop
  | cycle {path : List String} : IsCycle decls path → Explains decls (.cycle path)
  | notFound {n m : String} {d : Definition} : isBuiltinName n = false → ¬ IsDeclared decls n →
    decls.lookup m = some d → n ∈ d.mentions → Explains decls (.notFound n)
  | superNotSimple {s m : String} {d : Definition} : decls.lookup s = some d →
    d.isSimple = false → decls.lookup m = some (.simple (some s)) →
    Explains decls (.superNotSimple s)
  | invalidKey {t : Ty} {k : Member} {m : String} {d : Definition} : decls.lookup m = some d →
    k ∈ d.keys → (∀ u, Describes decls k u ↔ u = t) → t ≠ .ofBuiltin .string →
    t ≠ .ofBuiltin .integer → Explains decls (.invalidKey t)

/-- No name denotes two types if no declared name is built in. -/
theorem Denotes.unique (hd : ∀ n, IsDeclared decls n → isBuiltinName n = false)
    (h : Denotes decls name t) (h' : Denotes decls name u) : t = u := by
  induction h generalizing u with
  | builtin b =>
      generalize hn : b.name = n at h'
      cases h' with
      | builtin c => rw [Builtin.name_injective hn]
      | declared types hlook _ _ => cases (hn ▸ lookup_builtin_eq_none hd b).symm.trans hlook
  | declared types hlook _ ht ih =>
      cases h' with
      | builtin b => cases (lookup_builtin_eq_none hd b).symm.trans hlook
      | declared types' hlook' htypes' hu =>
          obtain rfl := Option.some.inj (hlook.symm.trans hlook')
          exact Definition.type?_agree (fun n a b ha hb ↦ ih n a ha (htypes' n b hb)) ht hu

/-- What a founded table says of a name is what the name denotes. -/
theorem Founded.denotes (h : Founded decls known) (ht : known.lookup name = some t) :
    Denotes decls name t := by
  refine h.lookup_induction .builtin ?_ ht
  intro below n d t _ _ ih _ hd ht _
  exact .declared (below.lookup ·) hd ih ht

/-- What a founded table says of a member is the only type that the member describes. -/
theorem Founded.describes_iff (hd : ∀ n, IsDeclared decls n → isBuiltinName n = false)
    (h : Founded decls known) {m : Member} (ht : m.type? (known.lookup ·) = some t) :
    Describes decls m u ↔ u = t := by
  constructor
  · rintro ⟨types, htypes, hu⟩
    exact Member.type?_agree (fun n a b ha hb ↦ (htypes n a ha).unique hd (h.denotes hb)) hu ht
  · rintro rfl
    exact ⟨(known.lookup ·), fun n u hn ↦ h.denotes hn, ht⟩

/-! ## Trails -/

/-- Declared names, none of them twice, of which the definition of each mentions the next one. -/
structure IsTrail (decls : Declarations) (path : List String) : Prop where
  nodup : path.Nodup
  declared : ∀ n ∈ path, IsDeclared decls n
  mentions : path.IsChain (Mentions decls)

/-- The name can come up at the end of the path: the last definition mentions it, or it comes first
and is declared. -/
def ComesUp (decls : Declarations) (path : List String) (name : String) : Prop :=
  match path.getLast? with
  | none => IsDeclared decls name
  | some p => ∃ d, decls.lookup p = some d ∧ name ∈ d.mentions

theorem isTrail_nil : IsTrail decls [] := ⟨.nil, List.forall_mem_nil _, .nil⟩

theorem comesUp_append (p : String) :
    ComesUp decls (path ++ [p]) name ↔ ∃ d, decls.lookup p = some d ∧ name ∈ d.mentions := by
  rw [ComesUp, List.getLast?_concat]

namespace IsTrail

theorem isChain_append (h : IsTrail decls path) (hname : ComesUp decls path name)
    (hd : IsDeclared decls name) : (path ++ [name]).IsChain (Mentions decls) := by
  refine List.isChain_append.2 ⟨h.mentions, .singleton name, fun p hp n hn ↦ ?_⟩
  obtain rfl := Option.mem_some.1 hn
  rw [ComesUp, Option.mem_def.1 hp] at hname
  exact ⟨hd, hname⟩

/-- A trail goes on with a declared name that is not on it yet. -/
theorem append (h : IsTrail decls path) (hname : ComesUp decls path name)
    (hd : IsDeclared decls name) (hp : name ∉ path) : IsTrail decls (path ++ [name]) where
  nodup := List.concat_eq_append ▸ h.nodup.concat hp
  declared := List.forall_mem_append.2 ⟨h.declared, List.forall_mem_singleton.2 hd⟩
  mentions := h.isChain_append hname hd

/-- A name that comes up again closes a cycle with all names that came after it. -/
theorem isCycle (h : IsTrail decls path) (hname : ComesUp decls path name) (hp : name ∈ path) :
    IsCycle decls (path.dropWhile (· != name) ++ [name]) := by
  obtain ⟨before, after, rfl, hbefore⟩ := List.eq_append_cons_of_mem hp
  have hdrop : (before ++ name :: after).dropWhile (· != name) = name :: after := by
    rw [List.dropWhile_append_of_pos fun n hn ↦ bne_iff_ne.2 (ne_of_mem_of_not_mem hn hbefore)]
    exact List.dropWhile_cons_of_neg (by simp)
  -- What stands before leads into the cycle and is no part of it.
  have hcons : name :: after ++ [name] <:+ before ++ name :: after ++ [name] :=
    ⟨before, by rw [List.append_assoc]⟩
  rw [hdrop]
  constructor
  case two_le_length => simp
  case closed => rw [List.getLast?_concat, List.head?_append, List.head?_cons, Option.some_or]
  case nodup =>
    rw [List.dropLast_concat]
    exact h.nodup.sublist (List.sublist_append_right _ _)
  case declared =>
    have hname := List.forall_mem_singleton.2 (h.declared name hp)
    exact fun n hn ↦ List.forall_mem_append.2 ⟨h.declared, hname⟩ n (hcons.subset hn)
  case mentions => exact (h.isChain_append hname (h.declared _ hp)).suffix hcons

end IsTrail

/-! ## Runs -/

/-- Resolving a name fails because it is on the path already, because it is not declared, or because
building its definition fails. -/
theorem resolve_eq_error {e : TypeError} (h : resolve decls path known name = .error e) :
    known.lookup name = none ∧
      (name ∈ path ∧ e = .cycle (path.dropWhile (· != name) ++ [name]) ∨
        decls.lookup name = none ∧ e = .notFound name ∨
        name ∉ path ∧ ∃ d, decls.lookup name = some d ∧
          build decls (path ++ [name]) known (some name) d = .error e) := by
  rw [resolve] at h
  split at h
  · cases h
  · rename_i hk
    split at h
    · rename_i hp
      obtain rfl := Except.error.inj h
      exact ⟨hk, .inl ⟨List.contains_iff_mem.1 hp, rfl⟩⟩
    · rename_i hp
      have hp : name ∉ path := by simpa using hp
      split at h
      · rename_i hd
        obtain rfl := Except.error.inj h
        exact ⟨hk, .inr (.inl ⟨hd, rfl⟩)⟩
      · rename_i d hd
        split at h
        · rename_i hb
          obtain rfl := Except.error.inj h
          exact ⟨hk, .inr (.inr ⟨hp, d, hd, hb⟩)⟩
        · cases h

/-- A run on a sound table fails only for a reason. -/
def FailsForReason {α : Type} (decls : Declarations) (path : List String)
    (run : Known → Except TypeError α) : Prop :=
  ∀ ⦃known e⦄, Sound decls path known → run known = .error e → Explains decls e

namespace FailsForReason

variable {α β γ : Type} {run : Known → Except TypeError (α × Known)}
  {run' : Known → Except TypeError (β × Known)} {means : (String → Option Ty) → Option α}
  {mentions supers : List String} {keys : List Member}

theorem ok (f : Known → α) : FailsForReason decls path fun known ↦ .ok (f known) := by
  intro known e _ he
  cases he

theorem map (h : FailsForReason decls path run) (f : α × Known → γ) :
    FailsForReason decls path fun known ↦ (run known).map f :=
  fun _ _ hs he ↦ h hs (map_eq_error_iff.1 he)

/-- One run after the other, which starts with the table that the first one leaves. -/
theorem pair (h : FailsForReason decls path run)
    (hf : Faithful decls path run means mentions supers keys)
    (h' : FailsForReason decls path run') (f : α × Known → β × Known → γ) :
    FailsForReason decls path fun known ↦ (run known).bind fun r ↦ (run' r.2).map (f r) := by
  intro known e hs he
  rcases bind_eq_error_iff.1 he with he | ⟨r, hr, he⟩
  · exact h hs he
  · obtain ⟨hl, -⟩ := hf.sound hs hr
    exact h' hl.sound (map_eq_error_iff.1 he)

/-- A check of what a run gives, which fails for a reason if the table says that it has to. -/
theorem guard (h : FailsForReason decls path run)
    (hf : Faithful decls path run means mentions supers keys) (test : α → Bool)
    (e : α → TypeError) (hreason : ∀ {known a}, Founded decls known →
      means (known.lookup ·) = some a → test a = false → Explains decls (e a)) :
    FailsForReason decls path fun known ↦
      (run known).bind fun r ↦ if test r.1 then .ok r else .error (e r.1) := by
  intro known err hs he
  rcases bind_eq_error_iff.1 he with he | ⟨r, hr, he⟩
  · exact h hs he
  · obtain ⟨hl, hm⟩ := hf.sound hs hr
    split at he
    · cases he
    · rename_i htest
      obtain rfl := Except.error.inj he
      exact hreason hl.sound.founded hm (Bool.eq_false_iff.2 htest)

end FailsForReason

/-- A definition or a member that is part of a declared definition: its names are resolved with an
error only for a reason, its super-types are those of declared types, and its keys are keys of
declared mappings. -/
structure IsPart (decls : Declarations) (path mentions supers : List String)
    (keys : List Member) : Prop where
  names : ∀ n ∈ mentions, FailsForReason decls path (resolve decls path · n)
  supers : ∀ s ∈ supers, ∃ m, decls.lookup m = some (.simple (some s))
  keys : ∀ k ∈ keys, ∃ m d, decls.lookup m = some d ∧ k ∈ d.keys

theorem IsPart.member {d : Definition} (h : IsPart decls path d.mentions d.supers d.keys)
    {m : Member} (hm : m ∈ d.members) : IsPart decls path m.mentions m.supers m.keys where
  names n hn := h.names n (Definition.mentions_subset hm hn)
  supers s hs := h.supers s (Definition.supers_subset hm hs)
  keys k hk := h.keys k (Definition.keys_subset hm hk)

theorem resolveMembers_failsForReason {ms : List Member}
    (h : ∀ m ∈ ms, FailsForReason decls path (resolveMember decls path · m)) :
    FailsForReason decls path (resolveMembers decls path · ms) := by
  induction ms with
  | nil =>
      simp only [resolveMembers]
      exact .ok _
  | cons m ms ih =>
      obtain ⟨hm, hms⟩ := List.forall_mem_cons.1 h
      simp only [resolveMembers_cons]
      exact hm.pair ((build_faithful_both (resolvesNames decls path)).2 m) (ih hms) _

theorem resolveFields_failsForReason {fs : List (String × Member)}
    (h : ∀ f ∈ fs, FailsForReason decls path (resolveMember decls path · f.2)) :
    FailsForReason decls path (resolveFields decls path · fs) := by
  induction fs with
  | nil =>
      simp only [resolveFields]
      exact .ok _
  | cons f fs ih =>
      obtain ⟨field, m⟩ := f
      obtain ⟨hm, hfs⟩ := List.forall_mem_cons.1 h
      simp only [resolveFields_cons]
      exact hm.pair ((build_faithful_both (resolvesNames decls path)).2 m) (ih hfs) _

section Read

variable (hdecls : Declares es decls)

include hdecls

/-- A definition is built with an error only for a reason, where its names are resolved so. -/
theorem build_failsForReason_both :
    (∀ (d : Definition) (type : Option String), IsPart decls path d.mentions d.supers d.keys →
      FailsForReason decls path (build decls path · type d)) ∧
    ∀ m : Member, IsPart decls path m.mentions m.supers m.keys →
      FailsForReason decls path (resolveMember decls path · m) := by
  have hfaithful := resolvesNames decls path
  refine Definition.induction ?simple ?list ?tuple ?fields ?keyed ?union ?named ?inline
  case simple =>
    intro s type h
    cases s with
    | none =>
        simp only [build]
        exact .ok _
    | some s =>
        simp only [build_simple_some]
        refine ((h.names s List.mem_cons_self).guard (hfaithful s) Ty.isSimple
          (fun _ ↦ .superNotSimple s) ?_).map _
        intro known t hf ht hsimple
        obtain ⟨m, hm⟩ := h.supers s List.mem_cons_self
        rcases hf.cases_lookup ht with ⟨b, -, rfl⟩ | ⟨d, hd, ht, -⟩
        · rw [Ty.isSimple_ofBuiltin] at hsimple
          cases hsimple
        · rw [(Definition.name_and_isSimple_of_type? ht).2] at hsimple
          exact .superNotSimple hd hsimple hm
  case list =>
    intro m hm type h
    simp only [build_list]
    exact (hm (h.member List.mem_cons_self)).map _
  case tuple =>
    intro ms hms type h
    simp only [build_tuple]
    exact (resolveMembers_failsForReason fun m hm ↦ hms m hm (h.member hm)).map _
  case fields =>
    intro fs hfs type h
    simp only [build_fields]
    refine (resolveFields_failsForReason fun f hf ↦ hfs f hf (h.member ?_)).map _
    exact List.mem_map_of_mem hf
  case keyed =>
    intro k v hk hv type h
    have hk := hk (h.member List.mem_cons_self)
    have hv := hv (h.member (List.mem_cons_of_mem _ List.mem_cons_self))
    have hfaithful := (build_faithful_both hfaithful).2 k
    simp only [build_keyed]
    refine FailsForReason.pair (hk.guard hfaithful
      (fun t ↦ t.builtin? == some .string || t.builtin? == some .integer) .invalidKey ?_)
      (resolveKey_faithful hfaithful) hv _
    intro known t hf ht htest
    obtain ⟨m, d, hd, hkey⟩ := h.keys k List.mem_cons_self
    refine .invalidKey hd hkey (fun u ↦ hf.describes_iff ?_ ht) ?_ ?_
    · exact fun n hn ↦ hdecls.isBuiltinName_eq_false hn
    · rintro rfl
      cases htest
    · rintro rfl
      cases htest
  case union =>
    intro ms hms type h
    simp only [build_union]
    exact (resolveMembers_failsForReason fun m hm ↦ hms m hm (h.member hm)).map _
  case named =>
    intro n h
    simp only [resolveMember]
    exact h.names n List.mem_cons_self
  case inline =>
    intro d hd h
    simp only [resolveMember]
    exact hd none h

/-- What stands in a declared definition is part of one. -/
theorem isPart_of_lookup {d : Definition} (hd : decls.lookup name = some d)
    (hnames : ∀ n ∈ d.mentions, FailsForReason decls path (resolve decls path · n)) :
    IsPart decls path d.mentions d.supers d.keys := by
  refine ⟨hnames, fun s hs ↦ ⟨name, ?_⟩, fun k hk ↦ ⟨name, d, hd, hk⟩⟩
  obtain ⟨v, -, hread⟩ := hdecls.mem_iff.1 (mem_of_lookup hd)
  rw [hd, Definition.eq_simple_of_mem_supers hread hs]

/-- Resolving a name that comes up on a trail fails only for a reason. -/
theorem resolve_failsForReason {path : List String} {name : String} (ht : IsTrail decls path)
    (hname : ComesUp decls path name) :
    FailsForReason decls path (resolve decls path · name) := by
  -- By the declared names that are ahead: each step down the trail puts one of them on the path.
  have hdown {d : Definition} (hd : decls.lookup name = some d) (hp : name ∉ path) :
      ∀ n ∈ d.mentions,
        FailsForReason decls (path ++ [name]) (resolve decls (path ++ [name]) · n) := by
    intro n hn
    have hdecl : IsDeclared decls name := List.mem_map_of_mem (mem_of_lookup hd)
    exact resolve_failsForReason (ht.append hname hdecl hp) ((comesUp_append name).2 ⟨d, hd, hn⟩)
  intro known e hs he
  obtain ⟨hk, hcases⟩ := resolve_eq_error he
  rcases hcases with ⟨hp, rfl⟩ | ⟨hd, rfl⟩ | ⟨hp, d, hd, hb⟩
  · exact .cycle (ht.isCycle hname hp)
  · have hdecl : ¬ IsDeclared decls name := fun hn ↦ lookup_ne_none_iff.2 hn hd
    have hbuiltin : isBuiltinName name = false := by
      refine Bool.eq_false_iff.2 fun hb ↦ ?_
      obtain ⟨b, rfl⟩ := isBuiltinName_iff.1 hb
      rw [hs.founded.lookup_builtin b] at hk
      cases hk
    rw [ComesUp] at hname
    split at hname
    · exact absurd hname hdecl
    · obtain ⟨d, hd, hn⟩ := hname
      exact .notFound hbuiltin hdecl hd hn
  · have hpart := isPart_of_lookup hdecls hd (hdown hd hp)
    exact (build_failsForReason_both hdecls).1 d (some name) hpart (hs.append hk) hb
termination_by ahead decls path
decreasing_by exact ahead_append_lt hd (by simpa using hp)

theorem resolveAll_failsForReason {names : List String} (h : ∀ n ∈ names, IsDeclared decls n) :
    FailsForReason decls [] (resolveAll decls · names) := by
  induction names with
  | nil => exact .ok _
  | cons name names ih =>
      obtain ⟨hname, hnames⟩ := List.forall_mem_cons.1 h
      intro known e hs he
      simp only [resolveAll] at he
      split at he
      · rename_i hresolve
        obtain rfl := Except.error.inj he
        exact resolve_failsForReason hdecls isTrail_nil hname hs hresolve
      · rename_i t k hk
        obtain ⟨hl, -⟩ := (resolvesNames decls [] name).sound hs hk
        exact ih hnames hl.sound he

/-- Declarations whose definitions can be read have no registry only for a reason, and the error
says which. -/
theorem explains_of_ofEntries_eq_error {e : TypeError} (he : ofEntries es = .error e) :
    Explains decls e := by
  rw [ofEntries, declarations_eq_ok_iff.2 hdecls] at he
  exact resolveAll_failsForReason hdecls (fun _ hn ↦ hn) ⟨.builtin, List.forall_mem_nil _⟩
    (map_eq_error_iff.1 he)

end Read

/-- Four declarations of which the first one leads into a cycle of the other three, by way of
definitions in place. -/
def tangled : Entries := [
  (.string "Batch", .mapping [(.string "list", .string "Sample")]),
  (.string "Sample", .mapping [(.string "tuple", .sequence [.string "string",
    .mapping [(.string "list", .string "Plate")]])]),
  (.string "Plate", .mapping [(.string "mapping", .mapping [(.string "rack", .string "Rack")])]),
  (.string "Rack", .mapping [(.string "list", .string "Sample")])]

/-- What they declare. -/
def tangledDecls : Declarations := [
  ("Batch", .list (.named "Sample")),
  ("Sample", .tuple [.named "string", .inline (.list (.named "Plate"))]),
  ("Plate", .fields [("rack", .named "Rack")]),
  ("Rack", .list (.named "Sample"))]

/-- The theorem at a cycle with a way that leads into it, which is no part of what is reported. -/
theorem tangled_explained : Declares tangled tangledDecls ∧
    ofEntries tangled = .error (.cycle ["Sample", "Plate", "Rack", "Sample"]) ∧
    Explains tangledDecls (.cycle ["Sample", "Plate", "Rack", "Sample"]) := by
  have hdecls : Declares tangled tangledDecls := declarations_eq_ok_iff.1 (by cbv)
  have he : ofEntries tangled = .error (.cycle ["Sample", "Plate", "Rack", "Sample"]) := by cbv
  exact ⟨hdecls, he, explains_of_ofEntries_eq_error hdecls he⟩

end Registry

end LabPlan
