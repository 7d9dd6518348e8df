import LabPlan.Entrypoint
import LabPlan.Proofs.Entries
import LabPlan.Proofs.Validity
import LabPlan.Proofs.Description.Rendering

/-! # Parameters of entrypoints

The parameters of a request are put into a mapping before they are checked, so of two with one name
the later takes the place of the earlier.  What is checked is the last parameter of each name; that
is each of them exactly if their names are distinct. -/

namespace LabPlan

namespace Parameter

variable {p : Parameter}

/-- A type is looked up by its name. -/
theorem isWellTyped_iff : p.IsWellTyped ↔ ∀ t ∈ p.typeName, ∃ b ∈ Builtin.ofName? t,
    (p.default matches .null) = true ∨ (Ty.ofBuiltin b).accepts p.default = true := by
  have hname (b : Builtin) (t : String) : b ∈ Builtin.ofName? t ↔ b.name = t := by
    refine ⟨fun h ↦ (Builtin.name_of_ofName? h).symm, ?_⟩
    rintro rfl
    exact Builtin.ofName?_name b
  have hnull : (p.default matches .null) = true ↔ p.default = .null := by
    cases p.default <;> simp
  simp only [IsWellTyped, hname, hnull, Option.mem_def]

instance : Decidable p.IsWellTyped := decidable_of_iff _ isWellTyped_iff.symm

end Parameter

/-- A document has no problems if it holds a description that has none. -/
theorem Value.problems_eq_nil_iff {v : Value} : v.problems = [] ↔
    ∃ d, Description.ofValue v = .ok d ∧ d.problems (.ofDescription d) = [] := by
  rw [Value.problems]
  cases h : Description.ofValue v with
  | ok d => simp
  | error ps =>
      refine iff_of_false ?_ (by simp)
      rintro rfl
      cases v with
      | mapping root => exact Checked.toExcept_ne_error_nil h
      | _ => cases h

namespace EntrypointParameter

/-- The parameter of a description that is meant. -/
def asParameter (p : EntrypointParameter) : Parameter :=
  ⟨p.name, p.default.getD .null, p.typeName⟩

/-- The rules for a parameter: its name has no dot, and its type, if it has one, is built in and takes
the default unless that is left out or null. -/
structure Passes (p : EntrypointParameter) : Prop where
  undotted : IsUndotted p.name
  typed : p.asParameter.IsWellTyped

instance (p : EntrypointParameter) : Decidable p.Passes :=
  decidable_of_iff ('.' ∉ p.name.toList ∧ p.asParameter.IsWellTyped)
    ⟨fun h ↦ ⟨h.1, h.2⟩, fun h ↦ ⟨h.undotted, h.typed⟩⟩

variable {p : EntrypointParameter} {q : Parameter}

theorem exists_spec (p : EntrypointParameter) : ∃ es, p.spec = .mapping es ∧
    Entries.lookup "default" es = p.default ∧
    Entries.lookup "type" es = p.typeName.map Value.string := by
  obtain ⟨name, default, typeName⟩ := p
  cases default with
  | none => cases typeName <;> exact ⟨_, rfl, rfl, rfl⟩
  | some v => cases typeName <;> exact ⟨_, rfl, rfl, rfl⟩

/-- What is read from the specification of a parameter is the parameter that is meant, and its type
takes its default. -/
theorem eq_asParameter_of_spec (h : Shape.parameter p.name p.spec = pure (some q)) :
    q = p.asParameter ∧ p.asParameter.IsWellTyped := by
  obtain ⟨q', hq, -, htyped⟩ := Shape.isWellTyped_of_parameter h
  obtain rfl := Option.some.inj hq
  obtain ⟨es, hspec, hdefault, htype⟩ := p.exists_spec
  rw [hspec] at h
  obtain ⟨-, type, htype', -, hq⟩ := Shape.parameter_mapping_eq_pure_iff.1 h
  rw [htype] at htype'
  have hname : type.map Builtin.name = p.typeName := by
    cases type with
    | none => exact (Option.map_eq_none_iff.1 htype').symm
    | some b =>
        obtain ⟨t, ht, hb⟩ := Option.map_eq_some_iff.1 htype'
        rw [ht, Value.string.inj hb]
        rfl
  obtain rfl : q = p.asParameter := by
    rw [Option.some.inj hq, hdefault, hname]
    rfl
  exact ⟨rfl, htyped⟩

end EntrypointParameter

namespace EntrypointRequest

variable {r : EntrypointRequest}

/-- The last parameter of a name. -/
def last? (r : EntrypointRequest) (name : String) : Option EntrypointParameter :=
  r.parameters.reverse.find? (·.name == name)

/-! ## The mapping of parameters -/

/-- What is found in the mapping is the last parameter of the name, or what was there before. -/
theorem lookup_foldl_insert (name : String) (ps : List EntrypointParameter) (es : Entries) :
    Entries.lookup name (ps.foldl (fun es p ↦ Entries.insert p.name p.spec es) es) =
      ((ps.reverse.find? (·.name == name)).map EntrypointParameter.spec).or
        (Entries.lookup name es) := by
  induction ps generalizing es with
  | nil => rfl
  | cons p ps ih =>
      have hlast : (p :: ps).reverse.find? (·.name == name) =
          (ps.reverse.find? (·.name == name)).or (if name = p.name then some p else none) := by
        rw [List.reverse_cons, List.find?_append, List.find?_singleton]
        simp only [beq_iff_eq, eq_comm (a := name)]
      -- The first parameter is put in first, so any later one of its name is found instead.
      rw [List.foldl_cons, ih, Entries.lookup_insert, hlast]
      cases ps.reverse.find? (·.name == name) with
      | some q => rfl
      | none =>
          split
          · rfl
          · rfl

theorem lookup_parameterEntries (r : EntrypointRequest) (name : String) :
    Entries.lookup name r.parameterEntries = (r.last? name).map EntrypointParameter.spec := by
  rw [parameterEntries, lookup_foldl_insert, Entries.lookup_nil, Option.or_none]
  rfl

/-- The names in the mapping are those of parameters. -/
theorem mem_names_of_mem_foldl_insert {name : String} {ps : List EntrypointParameter}
    {es : Entries}
    (h : name ∈ Entries.names (ps.foldl (fun es p ↦ Entries.insert p.name p.spec es) es)) :
    name ∈ ps.map EntrypointParameter.name ∨ name ∈ Entries.names es := by
  induction ps generalizing es with
  | nil => exact .inr h
  | cons p ps ih =>
      rw [List.map_cons, List.mem_cons, or_assoc, or_left_comm]
      exact (ih h).imp_right Entries.mem_names_insert

theorem mem_names_of_parameterEntries {name : String}
    (h : name ∈ Entries.names r.parameterEntries) :
    name ∈ r.parameters.map EntrypointParameter.name :=
  (mem_names_of_mem_foldl_insert h).resolve_right List.not_mem_nil

theorem last?_eq_none_iff {name : String} :
    r.last? name = none ↔ name ∉ r.parameters.map EntrypointParameter.name := by
  simp [last?]

theorem name_of_last? {name : String} {p : EntrypointParameter} (h : r.last? name = some p) :
    p.name = name := by
  simpa using List.find?_some h

/-- A name that some parameter has is that of a last one. -/
theorem exists_last? {name : String}
    (h : name ∈ r.parameters.map EntrypointParameter.name) : ∃ p, r.last? name = some p :=
  Option.ne_none_iff_exists'.1 (mt last?_eq_none_iff.1 (not_not.2 h))

/-- Where names are distinct, each parameter is the last of its name. -/
theorem last?_name (hd : (r.parameters.map EntrypointParameter.name).Nodup)
    {p : EntrypointParameter} (hp : p ∈ r.parameters) : r.last? p.name = some p := by
  have hd' : (r.parameters.reverse.map EntrypointParameter.name).Nodup := by
    rwa [List.map_reverse, List.nodup_reverse]
  exact (Description.find?_name_eq_some_iff hd').2 ⟨List.mem_reverse.2 hp, rfl⟩

/-! ## What is checked -/

/-- In a description made from the mapping, the parameter of a name is the last of this name, and
that one passes. -/
theorem parameter?_of_parameterEntries {d : Description}
    (h : Shape.parameterEntries [] r.parameterEntries = pure d.parameters) (name : String) :
    d.parameter? name = (r.last? name).map EntrypointParameter.asParameter ∧
      ∀ p, r.last? name = some p → p.Passes := by
  obtain ⟨hdeclarable, hread⟩ := Shape.areDeclarable_of_parameterEntries h
  cases hlast : r.last? name with
  | none =>
      refine ⟨Description.parameter?_eq_none_iff.2 fun hname ↦ ?_, fun _ hp ↦ absurd hp nofun⟩
      obtain ⟨q, hq, rfl⟩ := List.mem_map.1 hname
      obtain ⟨e, he, htext, -⟩ := Checked.exists_of_forall₂ hread hq
      exact last?_eq_none_iff.1 hlast
        (mem_names_of_parameterEntries (Entries.mem_names_of_mem he htext))
  | some p =>
      have hpname := name_of_last? hlast
      have hfound : Entries.lookup name r.parameterEntries = some p.spec := by
        rw [lookup_parameterEntries, hlast]
        rfl
      obtain ⟨q, hq, htext, hspec⟩ :=
        Checked.exists_of_forall₂ hread.flip (Entries.mem_of_lookup hfound)
      obtain rfl := Option.some.inj htext
      rw [← hpname] at hspec
      obtain ⟨rfl, htyped⟩ := EntrypointParameter.eq_asParameter_of_spec hspec
      refine ⟨(Description.find?_name_eq_some_iff hdeclarable.nodup).2 ⟨hq, hpname⟩, ?_⟩
      intro p' hp'
      obtain rfl := Option.some.inj hp'
      exact ⟨hdeclarable.undotted _ hq, htyped⟩

/-- An entrypoint without problems is a document that holds a description. -/
theorem exists_description_of_problems_eq_nil (h : r.problems = []) :
    ∃ doc d, r.document? = some doc ∧ Description.ofValue doc = .ok d := by
  rw [problems] at h
  split at h
  · rename_i doc hdoc
    obtain ⟨d, hd, -⟩ := Value.problems_eq_nil_iff.1 h
    exact ⟨doc, d, hdoc, hd⟩
  · cases h

/-- The document of an entrypoint has the mapping for its parameters, unless there are none. -/
theorem parameters_of_document? {doc : Value} (hdoc : r.document? = some doc) {d : Description}
    (hd : Description.ofValue doc = .ok d) :
    Shape.parameterEntries [] r.parameterEntries = pure d.parameters := by
  obtain ⟨graph, -, hgraph⟩ := Option.bind_eq_some_iff.1 hdoc
  obtain rfl := Option.some.inj hgraph
  obtain ⟨root, hroot, hread⟩ := Description.ofValue_eq_ok_iff.1 hd
  obtain rfl := Value.mapping.inj hroot
  obtain ⟨-, hparameters, -⟩ := Shape.document_eq_pure_iff.1 hread
  rw [parameterEntries]
  cases hps : r.parameters with
  | nil =>
      rw [hps] at hparameters
      exact hparameters
  | cons p ps =>
      rw [parameterEntries, hps] at hparameters
      exact hparameters

/-- In a valid entrypoint no name of a parameter has a dot, and the last parameter of each name
passes its check; it is the one that steps refer to.  So all parameters pass if their names are
distinct. -/
theorem last_passes_of_valid {text : String} {r : EntrypointRequest} (hr : ofText? text = some r)
    (hvalid : problemsOfText text = []) :
    (∀ p ∈ r.parameters, IsUndotted p.name) ∧
    (∀ name p, r.last? name = some p → p.Passes) ∧
    ((r.parameters.map EntrypointParameter.name).Nodup → ∀ p ∈ r.parameters, p.Passes) ∧
    ∃ doc d, r.document? = some doc ∧ Description.ofValue doc = .ok d ∧
      ∀ name, d.parameter? name = (r.last? name).map EntrypointParameter.asParameter := by
  rw [problemsOfText, hr] at hvalid
  obtain ⟨doc, d, hdoc, hd⟩ := exists_description_of_problems_eq_nil hvalid
  have hread := parameters_of_document? hdoc hd
  have hlast (name : String) := parameter?_of_parameterEntries hread name
  refine ⟨fun p hp ↦ ?_, fun name ↦ (hlast name).2, fun hnames p hp ↦ ?_, doc, d, hdoc, hd,
    fun name ↦ (hlast name).1⟩
  · obtain ⟨q, hq⟩ := exists_last? (List.mem_map_of_mem hp)
    rw [← name_of_last? hq]
    exact ((hlast p.name).2 q hq).undotted
  · exact (hlast p.name).2 p (last?_name hnames hp)

/-- A request with two parameters of one name, of which the first has a default that is no
integer. -/
def repeated : String :=
  "\x7b\"task_graph\":\"s: \x7bt: 1\x7d\",\"tasks\":\x7b\"t\":\x7b\"plugin\":\"a.b.c\"\x7d\x7d," ++
    "\"entrypoint_parameters\":[\x7b\"name\":\"a\",\"default_value\":\"x\"," ++
    "\"parameter_type\":\"integer\"\x7d,\x7b\"name\":\"a\"\x7d]\x7d"

/-- What the text is read as, and that nothing is wrong with it. -/
theorem exists_repeated : ∃ r, ofText? repeated = some r ∧ problemsOfText repeated = [] ∧
    r.parameters.map EntrypointParameter.name = ["a", "a"] ∧
    r.parameters.map (fun p ↦ decide p.Passes) = [false, true] := by
  have h : ((ofText? repeated).map fun r ↦ (r.problems.isEmpty,
      r.parameters.map EntrypointParameter.name, r.parameters.map fun p ↦ decide p.Passes)) =
      some (true, ["a", "a"], [false, true]) := by decide +kernel
  obtain ⟨r, hr, heq⟩ := Option.map_eq_some_iff.1 h
  obtain ⟨hproblems, heq⟩ := Prod.mk.inj heq
  obtain ⟨hnames, hpasses⟩ := Prod.mk.inj heq
  refine ⟨r, hr, ?_, hnames, hpasses⟩
  rw [problemsOfText, hr]
  exact List.isEmpty_iff.1 hproblems

/-- The theorem at a valid request: the last parameter passes. -/
theorem repeated_last_passes : ∃ r, ofText? repeated = some r ∧ problemsOfText repeated = [] ∧
    ∃ p, r.last? "a" = some p ∧ p.Passes := by
  obtain ⟨r, hr, hvalid, hnames, -⟩ := exists_repeated
  obtain ⟨-, hlast, -, -⟩ := last_passes_of_valid hr hvalid
  obtain ⟨p, hp⟩ := exists_last? (hnames ▸ List.mem_cons_self)
  exact ⟨r, hr, hvalid, p, hp, hlast _ p hp⟩

/-- The request is valid, though two parameters have one name and one of them does not pass. -/
theorem repeated_not_all_pass : ∃ r, ofText? repeated = some r ∧ problemsOfText repeated = [] ∧
    ¬ (r.parameters.map EntrypointParameter.name).Nodup ∧ ∃ p ∈ r.parameters, ¬ p.Passes := by
  obtain ⟨r, hr, hvalid, hnames, hpasses⟩ := exists_repeated
  refine ⟨r, hr, hvalid, ?_, ?_⟩
  · rw [hnames]
    decide
  · obtain ⟨p, hp, hfails⟩ := List.mem_map.1 (hpasses ▸ List.mem_cons_self)
    exact ⟨p, hp, of_decide_eq_false hfails⟩

end EntrypointRequest

end LabPlan
