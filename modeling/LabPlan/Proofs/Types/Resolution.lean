import LabPlan.Proofs.Types.Founded

/-! # Resolution

Resolving a name, a member or a definition with a founded table at hand gives the type that it means
in the table that is left, and it fails only if it has to: where declarations have a meaning, the
names on the path lead to the name at hand, so that it cannot be one of them. -/

namespace LabPlan

section Except

variable {ε α β γ : Type}

theorem map_eq_bind {x : Except ε α} {f : α → β} : x.map f = x.bind fun a ↦ .ok (f a) := by
  cases x with
  | error e => rfl
  | ok a => rfl

theorem map_of_map {x : Except ε α} {f : α → β} {g : β → γ} :
    (x.map f).map g = x.map fun a ↦ g (f a) := by
  cases x with
  | error e => rfl
  | ok a => rfl

theorem map_of_bind {x : Except ε α} {f : α → Except ε β} {g : β → γ} :
    (x.bind f).map g = x.bind fun a ↦ (f a).map g := by
  cases x with
  | error e => rfl
  | ok a => rfl

theorem bind_of_bind {x : Except ε α} {f : α → Except ε β} {g : β → Except ε γ} :
    (x.bind f).bind g = x.bind fun a ↦ (f a).bind g := by
  cases x with
  | error e => rfl
  | ok a => rfl

theorem map_eq_ok_iff {x : Except ε α} {f : α → β} {b : β} :
    x.map f = .ok b ↔ ∃ a, x = .ok a ∧ f a = b := by
  cases x with
  | error e => simp [Except.map]
  | ok a => simp [Except.map]

theorem bind_eq_ok_iff {x : Except ε α} {f : α → Except ε β} {b : β} :
    x.bind f = .ok b ↔ ∃ a, x = .ok a ∧ f a = .ok b := by
  cases x with
  | error e => simp [Except.bind]
  | ok a => simp [Except.bind]

theorem map_eq_error_iff {x : Except ε α} {f : α → β} {e : ε} :
    x.map f = .error e ↔ x = .error e := by
  cases x with
  | error e => simp [Except.map]
  | ok a => simp [Except.map]

theorem bind_eq_error_iff {x : Except ε α} {f : α → Except ε β} {e : ε} :
    x.bind f = .error e ↔ x = .error e ∨ ∃ a, x = .ok a ∧ f a = .error e := by
  cases x with
  | error e => simp [Except.bind]
  | ok a => simp [Except.bind]

end Except

namespace Registry

variable {decls : Declarations} {path : List String} {known known' : Known} {name : String}
  {mentions mentions' supers supers' : List String} {keys keys' : List Member}

/-- The table is founded, and the names on the path are still missing from it. -/
structure Sound (decls : Declarations) (path : List String) (known : Known) : Prop where
  founded : Founded decls known
  missing : ∀ p ∈ path, known.lookup p = none

/-- What resolution leaves behind: a sound table with all the types that were there before, in which
super-types and keys are as they should be. -/
structure Leaves (decls : Declarations) (path : List String) (known : Known) (supers : List String)
    (keys : List Member) (known' : Known) : Prop where
  sound : Sound decls path known'
  all : Extends known known'
  checked : IsChecked known' supers keys

theorem Leaves.trans {k₁ k₂ k₃ : Known} (h : Leaves decls path k₁ supers keys k₂)
    (h' : Leaves decls path k₂ supers' keys' k₃) :
    Leaves decls path k₁ (supers ++ supers') (keys ++ keys') k₃ :=
  ⟨h'.sound, h.all.trans h'.all, (h.checked.mono h'.all).append h'.checked⟩

/-- Names that can be resolved on a path: each is built in, or declared and mentioned, possibly
through other names, by every name on the path. -/
structure IsReady (decls : Declarations) (path mentions supers : List String)
    (keys : List Member) : Prop where
  reached : ∀ n ∈ mentions, isBuiltinName n = true ∨
    IsDeclared decls n ∧ ∀ p ∈ path, Relation.TransGen (Mentions decls) p n
  supers : ∀ s ∈ supers, isBuiltinName s = true ∨ ∃ u, decls.lookup s = some (.simple u)
  keys : ∀ k ∈ keys, k = .named "string" ∨ k = .named "integer"

theorem isReady_append :
    IsReady decls path (mentions ++ mentions') (supers ++ supers') (keys ++ keys') ↔
      IsReady decls path mentions supers keys ∧ IsReady decls path mentions' supers' keys' := by
  constructor
  · rintro ⟨hr, hs, hk⟩
    rw [List.forall_mem_append] at hr hs hk
    exact ⟨⟨hr.1, hs.1, hk.1⟩, hr.2, hs.2, hk.2⟩
  · rintro ⟨⟨hr, hs, hk⟩, hr', hs', hk'⟩
    exact ⟨List.forall_mem_append.2 ⟨hr, hr'⟩, List.forall_mem_append.2 ⟨hs, hs'⟩,
      List.forall_mem_append.2 ⟨hk, hk'⟩⟩

/-! ## One step of each function -/

theorem resolveMembers_cons (m : Member) (ms : List Member) :
    resolveMembers decls path known (m :: ms) = (resolveMember decls path known m).bind fun r ↦
      (resolveMembers decls path r.2 ms).map fun r' ↦ (r.1 :: r'.1, r'.2) := by
  rw [resolveMembers]
  rcases resolveMember decls path known m with e | ⟨t, k⟩
  · rfl
  · dsimp only [Except.bind]
    cases resolveMembers decls path k ms with
    | error e => rfl
    | ok r => rfl

theorem resolveFields_cons (field : String) (m : Member) (fs : List (String × Member)) :
    resolveFields decls path known ((field, m) :: fs) =
      (resolveMember decls path known m).bind fun r ↦
        (resolveFields decls path r.2 fs).map fun r' ↦ ((field, r.1) :: r'.1, r'.2) := by
  rw [resolveFields]
  rcases resolveMember decls path known m with e | ⟨t, k⟩
  · rfl
  · dsimp only [Except.bind]
    cases resolveFields decls path k fs with
    | error e => rfl
    | ok r => rfl

section Build

variable {type : Option String}

theorem build_simple_some (s : String) : build decls path known type (.simple (some s)) =
    ((resolve decls path known s).bind fun r ↦
      if r.1.isSimple then .ok r else .error (.superNotSimple s)).map fun r ↦
        (.simple type (some r.1), r.2) := by
  rw [build]
  rcases resolve decls path known s with e | ⟨t, k⟩
  · rfl
  · dsimp only [Except.bind]
    split
    · rfl
    · rfl

theorem build_list (m : Member) : build decls path known type (.list m) =
    (resolveMember decls path known m).map fun r ↦ (.list type r.1, r.2) := by
  rw [build]
  cases resolveMember decls path known m with
  | error e => rfl
  | ok r => rfl

theorem build_tuple (ms : List Member) : build decls path known type (.tuple ms) =
    (resolveMembers decls path known ms).map fun r ↦ (.tuple type r.1, r.2) := by
  rw [build]
  cases resolveMembers decls path known ms with
  | error e => rfl
  | ok r => rfl

theorem build_fields (fs : List (String × Member)) : build decls path known type (.fields fs) =
    (resolveFields decls path known fs).map fun r ↦ (.fields type r.1, r.2) := by
  rw [build]
  cases resolveFields decls path known fs with
  | error e => rfl
  | ok r => rfl

theorem build_union (ms : List Member) : build decls path known type (.union ms) =
    (resolveMembers decls path known ms).map fun r ↦ (.union type r.1, r.2) := by
  rw [build]
  cases resolveMembers decls path known ms with
  | error e => rfl
  | ok r => rfl

theorem build_keyed (k v : Member) : build decls path known type (.keyed k v) =
    ((resolveMember decls path known k).bind fun r ↦
      if r.1.builtin? == some .string || r.1.builtin? == some .integer then .ok r
      else .error (.invalidKey r.1)).bind fun r ↦
        (resolveMember decls path r.2 v).map fun r' ↦ (.keyed type r.1 r'.1, r'.2) := by
  rw [build]
  rcases resolveMember decls path known k with e | ⟨t, known⟩
  · rfl
  · dsimp only [Except.bind]
    split
    · dsimp only
      cases resolveMember decls path known v with
      | error e => rfl
      | ok r => rfl
    · rfl

end Build

/-- A name is known, or resolving it is building its definition one step further down the path. -/
theorem resolve_eq_ok_iff {t : Ty} : resolve decls path known name = .ok (t, known') ↔
    known.lookup name = some t ∧ known' = known ∨
    known.lookup name = none ∧ name ∉ path ∧ ∃ d k, decls.lookup name = some d ∧
      build decls (path ++ [name]) known (some name) d = .ok (t, k) ∧ known' = (name, t) :: k := by
  rw [resolve]
  split
  · rename_i u hk
    simp [hk, eq_comm]
  · rename_i hk
    split
    · rename_i hp
      have hp : name ∈ path := List.contains_iff_mem.1 hp
      simp [hk, hp]
    · rename_i hp
      have hp : name ∉ path := by simpa using hp
      split
      · rename_i hd
        simp [hk, hd]
      · rename_i d hd
        cases hb : build decls (path ++ [name]) known (some name) d with
        | error e => simp [hk, hd, hb]
        | ok r =>
            obtain ⟨u, k⟩ := r
            constructor
            · intro h
              obtain ⟨rfl, rfl⟩ := Prod.mk.inj (Except.ok.inj h)
              exact .inr ⟨hk, hp, d, k, hd, hb, rfl⟩
            · rintro (⟨h, -⟩ | ⟨-, -, e, k', he, hb', rfl⟩)
              · cases hk.symm.trans h
              · obtain rfl := Option.some.inj (hd.symm.trans he)
                cases hb.symm.trans hb'
                rfl

/-! ## Faithful runs -/

/-- A run on the table gives what is meant, and it gives something if it can. -/
structure Faithful {α : Type} (decls : Declarations) (path : List String)
    (run : Known → Except TypeError (α × Known)) (means : (String → Option Ty) → Option α)
    (mentions supers : List String) (keys : List Member) : Prop where
  sound {known known' : Known} {a : α} : Sound decls path known → run known = .ok (a, known') →
    Leaves decls path known supers keys known' ∧ means (known'.lookup ·) = some a
  complete {known : Known} : IsMeaningful decls → Sound decls path known →
    IsReady decls path mentions supers keys → ∃ r, run known = .ok r

namespace Faithful

variable {α β γ : Type} {run : Known → Except TypeError (α × Known)}
  {run' : Known → Except TypeError (β × Known)} {means : (String → Option Ty) → Option α}
  {means' : (String → Option Ty) → Option β}

theorem pure (a : α) : Faithful decls path (fun known ↦ .ok (a, known)) (fun _ ↦ some a)
    [] [] [] := by
  constructor
  · intro known known' b hs h
    obtain ⟨rfl, rfl⟩ := Prod.mk.inj (Except.ok.inj h)
    exact ⟨⟨hs, fun _ _ h ↦ h, .nil⟩, rfl⟩
  · intro known _ _ _
    exact ⟨_, rfl⟩

theorem map (h : Faithful decls path run means mentions supers keys) (f : α → β) :
    Faithful decls path (fun known ↦ (run known).map fun r ↦ (f r.1, r.2))
      (fun types ↦ (means types).map f) mentions supers keys := by
  constructor
  · intro known known' b hs hrun
    obtain ⟨⟨a, k⟩, ha, heq⟩ := map_eq_ok_iff.1 hrun
    obtain ⟨rfl, rfl⟩ := Prod.mk.inj heq
    obtain ⟨hl, hm⟩ := h.sound hs ha
    exact ⟨hl, congrArg (Option.map f) hm⟩
  · intro known hm hs hr
    obtain ⟨r, hrun⟩ := h.complete hm hs hr
    exact ⟨_, map_eq_ok_iff.2 ⟨r, hrun, rfl⟩⟩

/-- One run after the other.  What the first one gives is not lost. -/
theorem pair (h : Faithful decls path run means mentions supers keys)
    (h' : Faithful decls path run' means' mentions' supers' keys')
    (hmono : ∀ {types types' : String → Option Ty} {a : α}, means types = some a →
      (∀ n t, types n = some t → types' n = some t) → means types' = some a) (f : α → β → γ) :
    Faithful decls path
      (fun known ↦ (run known).bind fun r ↦ (run' r.2).map fun r' ↦ (f r.1 r'.1, r'.2))
      (fun types ↦ (means types).bind fun a ↦ (means' types).map (f a))
      (mentions ++ mentions') (supers ++ supers') (keys ++ keys') := by
  constructor
  · intro known known' c hs hrun
    obtain ⟨⟨a, k⟩, ha, hrun⟩ := bind_eq_ok_iff.1 hrun
    obtain ⟨⟨b, k'⟩, hb, heq⟩ := map_eq_ok_iff.1 hrun
    obtain ⟨rfl, rfl⟩ := Prod.mk.inj heq
    obtain ⟨hl, hm⟩ := h.sound hs ha
    obtain ⟨hl', hm'⟩ := h'.sound hl.sound hb
    refine ⟨hl.trans hl', Option.bind_eq_some_iff.2 ⟨a, hmono hm hl'.all, ?_⟩⟩
    exact congrArg (Option.map (f a)) hm'
  · intro known hm hs hr
    obtain ⟨hr, hr'⟩ := isReady_append.1 hr
    obtain ⟨⟨a, k⟩, ha⟩ := h.complete hm hs hr
    obtain ⟨hl, -⟩ := h.sound hs ha
    obtain ⟨⟨b, k'⟩, hb⟩ := h'.complete hm hl.sound hr'
    exact ⟨_, bind_eq_ok_iff.2 ⟨(a, k), ha, map_eq_ok_iff.2 ⟨(b, k'), hb, rfl⟩⟩⟩

/-- A check of what a run gives. -/
theorem guard (h : Faithful decls path run means mentions supers keys) (supers' : List String)
    (keys' : List Member) (test : α → Bool) (e : α → TypeError)
    (hsound : ∀ {known a}, Founded decls known → means (known.lookup ·) = some a → test a = true →
      IsChecked known supers' keys')
    (hcomplete : ∀ {known a}, Founded decls known → means (known.lookup ·) = some a →
      IsReady decls path [] supers' keys' → test a = true) :
    Faithful decls path
      (fun known ↦ (run known).bind fun r ↦ if test r.1 then .ok r else .error (e r.1)) means
      mentions (supers' ++ supers) (keys' ++ keys) := by
  constructor
  · intro known known' a hs hrun
    obtain ⟨⟨b, k⟩, hb, hif⟩ := bind_eq_ok_iff.1 hrun
    obtain ⟨hl, hm⟩ := h.sound hs hb
    split at hif
    · rename_i htest
      obtain ⟨rfl, rfl⟩ := Prod.mk.inj (Except.ok.inj hif)
      have hc := hsound hl.sound.founded hm htest
      exact ⟨⟨hl.sound, hl.all, hc.append hl.checked⟩, hm⟩
    · cases hif
  · intro known hmean hs hr
    rw [← List.nil_append mentions, isReady_append] at hr
    obtain ⟨⟨b, k⟩, hb⟩ := h.complete hmean hs hr.2
    obtain ⟨hl, hm⟩ := h.sound hs hb
    have htest := hcomplete hl.sound.founded hm hr.1
    exact ⟨(b, k), bind_eq_ok_iff.2 ⟨(b, k), hb, if_pos htest⟩⟩

end Faithful

/-! ## Definitions on a path -/

/-- Names are resolved faithfully on the path. -/
def ResolvesNames (decls : Declarations) (path : List String) : Prop :=
  ∀ name, Faithful decls path (resolve decls path · name) (fun types ↦ types name) [name] [] []

/-- A member is resolved faithfully on the path. -/
def ResolvesMember (decls : Declarations) (path : List String) (m : Member) : Prop :=
  Faithful decls path (resolveMember decls path · m) (fun types ↦ m.type? types) m.mentions
    m.supers m.keys

theorem resolveMembers_faithful {ms : List Member} (h : ∀ m ∈ ms, ResolvesMember decls path m) :
    Faithful decls path (resolveMembers decls path · ms) (fun types ↦ Member.typesAll types ms)
      (Member.mentionsAll ms) (Member.supersAll ms) (Member.keysAll ms) := by
  induction ms with
  | nil =>
      simp only [resolveMembers]
      exact .pure []
  | cons m ms ih =>
      obtain ⟨hm, hms⟩ := List.forall_mem_cons.1 h
      simp only [resolveMembers_cons]
      exact hm.pair (ih hms) Member.type?_mono List.cons

theorem resolveFields_faithful {fs : List (String × Member)}
    (h : ∀ f ∈ fs, ResolvesMember decls path f.2) :
    Faithful decls path (resolveFields decls path · fs)
      (fun types ↦ Member.typesFields types fs) (Member.mentionsFields fs)
      (Member.supersFields fs) (Member.keysFields fs) := by
  induction fs with
  | nil =>
      simp only [resolveFields]
      exact .pure []
  | cons f fs ih =>
      obtain ⟨field, m⟩ := f
      obtain ⟨hm, hfs⟩ := List.forall_mem_cons.1 h
      have hmeans : (fun types ↦ Member.typesFields types ((field, m) :: fs)) = fun types ↦
          (m.type? types).bind fun t ↦
            (Member.typesFields types fs).map fun ts ↦ (field, t) :: ts := by
        funext types
        rw [Member.typesFields, Member.typesField, Option.bind_map]
        rfl
      rw [hmeans]
      simp only [resolveFields_cons]
      exact hm.pair (ih hfs) Member.type?_mono fun t ts ↦ (field, t) :: ts

/-- A super-type is resolved and found to be simple. -/
theorem resolveSuper_faithful (h : ResolvesNames decls path) (s : String) :
    Faithful decls path
      (fun known ↦ (resolve decls path known s).bind fun r ↦
        if r.1.isSimple then .ok r else .error (.superNotSimple s))
      (fun types ↦ types s) [s] [s] [] := by
  refine (h s).guard [s] [] Ty.isSimple (fun _ ↦ .superNotSimple s) ?sound ?complete
  case sound =>
    intro known t _ ht hsimple
    exact ⟨List.forall_mem_singleton.2 ⟨t, ht, hsimple⟩, List.forall_mem_nil _⟩
  case complete =>
    intro known t hf ht hr
    rcases hr.supers s List.mem_cons_self with hb | ⟨u, hu⟩
    · obtain ⟨b, rfl⟩ := isBuiltinName_iff.1 hb
      obtain rfl := Option.some.inj ((hf.lookup_builtin b).symm.trans ht)
      exact Ty.isSimple_ofBuiltin b
    · rcases hf.cases_lookup ht with ⟨b, -, rfl⟩ | ⟨d, hd, ht, -⟩
      · exact Ty.isSimple_ofBuiltin b
      · rw [(Definition.name_and_isSimple_of_type? ht).2, Option.some.inj (hd.symm.trans hu)]
        rfl

/-- A key is resolved and found to be a string or an integer. -/
theorem resolveKey_faithful {k : Member} (h : ResolvesMember decls path k) :
    Faithful decls path
      (fun known ↦ (resolveMember decls path known k).bind fun r ↦
        if r.1.builtin? == some .string || r.1.builtin? == some .integer then .ok r
        else .error (.invalidKey r.1))
      (fun types ↦ k.type? types) k.mentions k.supers (k :: k.keys) := by
  refine Faithful.guard h [] [k]
    (fun t ↦ t.builtin? == some .string || t.builtin? == some .integer) .invalidKey ?sound ?complete
  case sound =>
    intro known t hf ht htest
    refine ⟨List.forall_mem_nil _, List.forall_mem_singleton.2 ?_⟩
    rw [Bool.or_eq_true, beq_iff_eq, beq_iff_eq] at htest
    exact htest.imp (hf.eq_named_of_builtin? ht) (hf.eq_named_of_builtin? ht)
  case complete =>
    intro known t hf ht hr
    rcases hr.keys k List.mem_cons_self with rfl | rfl
    · obtain rfl := Option.some.inj ((hf.lookup_builtin .string).symm.trans ht)
      rfl
    · obtain rfl := Option.some.inj ((hf.lookup_builtin .integer).symm.trans ht)
      rfl

/-- Definitions are built faithfully where names are resolved so. -/
theorem build_faithful_both (h : ResolvesNames decls path) :
    (∀ (d : Definition) (name : Option String), Faithful decls path (build decls path · name d)
      (fun types ↦ d.type? types name) d.mentions d.supers d.keys) ∧
    ∀ m, ResolvesMember decls path m := by
  refine Definition.induction ?simple ?list ?tuple ?fields ?keyed ?union ?named ?inline
  case simple =>
    intro s name
    cases s with
    | none =>
        simp only [build]
        exact .pure (Ty.simple name none)
    | some s =>
        simp only [build_simple_some]
        exact (resolveSuper_faithful h s).map fun t ↦ Ty.simple name (some t)
  case list =>
    intro m hm name
    simp only [build_list]
    exact hm.map (Ty.list name)
  case tuple =>
    intro ms hms name
    simp only [build_tuple]
    exact (resolveMembers_faithful hms).map (Ty.tuple name)
  case fields =>
    intro fs hfs name
    simp only [build_fields]
    exact (resolveFields_faithful hfs).map (Ty.fields name)
  case keyed =>
    intro k v hk hv name
    simp only [build_keyed]
    exact (resolveKey_faithful hk).pair hv Member.type?_mono (Ty.keyed name)
  case union =>
    intro ms hms name
    simp only [build_union]
    exact (resolveMembers_faithful hms).map (Ty.union name)
  case named =>
    intro n
    simp only [ResolvesMember, resolveMember]
    exact h n
  case inline =>
    intro d hd
    simp only [ResolvesMember, resolveMember]
    exact hd none

/-! ## Names -/

theorem Sound.append (h : Sound decls path known) (hn : known.lookup name = none) :
    Sound decls (path ++ [name]) known :=
  ⟨h.founded, List.forall_mem_append.2 ⟨h.missing, List.forall_mem_singleton.2 hn⟩⟩

/-- One step down the path, everything that the definition mentions is ready. -/
theorem isReady_of_lookup {d : Definition} (hm : IsMeaningful decls)
    (hd : decls.lookup name = some d)
    (hp : ∀ p ∈ path, Relation.TransGen (Mentions decls) p name) :
    IsReady decls (path ++ [name]) d.mentions d.supers d.keys := by
  refine ⟨fun n hn ↦ ?_, hm.supers hd, hm.keys hd⟩
  rcases hm.known hd n hn with hb | hdecl
  · exact .inl hb
  · have hstep : Mentions decls name n := ⟨hdecl, d, hd, hn⟩
    refine .inr ⟨hdecl, List.forall_mem_append.2 ⟨fun p h ↦ (hp p h).tail hstep, ?_⟩⟩
    exact List.forall_mem_singleton.2 (.single hstep)

/-- Names are resolved faithfully on every path. -/
theorem resolvesNames (decls : Declarations) (path : List String) : ResolvesNames decls path := by
  intro name
  have hdown {d : Definition} (hd : decls.lookup name = some d) (hp : name ∉ path) :
      ResolvesNames decls (path ++ [name]) := resolvesNames decls (path ++ [name])
  constructor
  · intro known known' t hs h
    rcases resolve_eq_ok_iff.1 h with ⟨ht, rfl⟩ | ⟨hnew, hp, d, k, hd, hb, rfl⟩
    · exact ⟨⟨hs, fun _ _ h ↦ h, .nil⟩, ht⟩
    · have hbuild := (build_faithful_both (hdown hd hp)).1 d (some name)
      obtain ⟨hl, ht⟩ := hbuild.sound (hs.append hnew) hb
      obtain ⟨hmissing, hname⟩ := List.forall_mem_append.1 hl.sound.missing
      have hname := hname name List.mem_cons_self
      refine ⟨⟨⟨?_, fun p hp' ↦ ?_⟩, hl.all.trans (extends_cons hname), .nil⟩,
        List.lookup_cons_self⟩
      · exact .declared hl.sound.founded hname hd ht hl.checked
      · rw [lookup_cons_of_ne (ne_of_mem_of_not_mem hp' hp)]
        exact hmissing p hp'
  · intro known hm hs hr
    cases hk : known.lookup name with
    | some t => exact ⟨(t, known), resolve_eq_ok_iff.2 (.inl ⟨hk, rfl⟩)⟩
    | none =>
        rcases hr.reached name List.mem_cons_self with hb | ⟨hdecl, hreach⟩
        · obtain ⟨b, rfl⟩ := isBuiltinName_iff.1 hb
          rw [hs.founded.lookup_builtin b] at hk
          cases hk
        · have hp : name ∉ path := fun hp ↦ hm.acyclic name (hreach name hp)
          obtain ⟨d, hd⟩ := Option.ne_none_iff_exists'.1 (lookup_ne_none_iff.2 hdecl)
          have hbuild := (build_faithful_both (hdown hd hp)).1 d (some name)
          obtain ⟨⟨t, k⟩, hb⟩ :=
            hbuild.complete hm (hs.append hk) (isReady_of_lookup hm hd hreach)
          exact ⟨_, resolve_eq_ok_iff.2 (.inr ⟨hk, hp, d, k, hd, hb, rfl⟩)⟩
termination_by ahead decls path
decreasing_by exact ahead_append_lt hd (by simpa using hp)

end Registry

end LabPlan
