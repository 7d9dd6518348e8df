import LabPlan.Description.Render
import LabPlan.Description.Shape
import LabPlan.Proofs.Description.Checked
import LabPlan.Proofs.Entries
import LabPlan.Proofs.Types.Comparison

/-! # Declarations

Parameters and tasks that are read without problems are well formed, and well-formed ones are read
from the values as which they are written. -/

namespace LabPlan.Shape

/-- The keys of a section that are none of its known ones. -/
def unknownKeys (known : List String) (es : Entries) : List Value :=
  (Entries.keys es).filter fun k ↦ !readsAs known k

/-! ## Parameters -/

/-- Names are declared if they are new and have no dot. -/
theorem declare_eq_pure_iff {seen : List String} {name : String} {b : Bool} :
    declare seen name = pure b ↔ b = true ∧ IsUndotted name ∧ name ∉ seen := by
  rw [declare, IsUndotted]
  split
  · rename_i hdot
    refine iff_of_false Checked.note_bind_ne_pure fun h ↦ ?_
    exact h.2.1 (List.contains_iff_mem.1 hdot)
  · rename_i hdot
    split
    · rename_i hseen
      refine iff_of_false Checked.note_bind_ne_pure fun h ↦ ?_
      exact h.2.2 (List.contains_iff_mem.1 hseen)
    · rename_i hseen
      rw [List.contains_iff_mem] at hdot hseen
      rw [Checked.pure_inj, and_iff_left ⟨hdot, hseen⟩]
      exact eq_comm

/-- The type of a parameter is left out or the name of one that is built in. -/
theorem parameterType_eq_pure_iff {name : String} {spec : Entries} {o : Option (Option Builtin)} :
    parameterType name spec = pure o ↔ ∃ type : Option Builtin, o = some type ∧
      Entries.lookup "type" spec = type.map fun b ↦ .string b.name := by
  rw [parameterType]
  cases h : Entries.lookup "type" spec with
  | none =>
      simp only [Checked.pure_inj]
      constructor
      · rintro rfl
        exact ⟨none, rfl, rfl⟩
      · rintro ⟨type, rfl, htype⟩
        rw [Option.map_eq_none_iff.1 htype.symm]
  | some v =>
      by_cases hv : ∃ b : Builtin, v = .string b.name
      · obtain ⟨b, rfl⟩ := hv
        simp only [Builtin.ofName?_name, Checked.pure_inj]
        constructor
        · rintro rfl
          exact ⟨some b, rfl, rfl⟩
        · rintro ⟨type, rfl, htype⟩
          obtain ⟨c, rfl, hc⟩ := Option.map_eq_some_iff.1 htype.symm
          rw [Builtin.name_injective (Value.string.inj hc)]
      · refine iff_of_false (fun hr ↦ ?_) ?_
        · cases v with
          | string t =>
              cases hb : Builtin.ofName? t with
              | none =>
                  simp only [hb] at hr
                  exact Checked.reject_ne_pure hr
              | some b => exact hv ⟨b, congrArg _ (Builtin.name_of_ofName? hb)⟩
          | _ => exact Checked.reject_ne_pure hr
        · rintro ⟨type, -, htype⟩
          obtain ⟨b, -, rfl⟩ := Option.map_eq_some_iff.1 htype.symm
          exact hv ⟨b, rfl⟩

/-- A parameter with a specification: its keys are known, and its type, if it has one, is built in
and takes the default. -/
theorem parameter_mapping_eq_pure_iff {name : String} {spec : Entries} {o : Option Parameter} :
    parameter name (.mapping spec) = pure o ↔
      unknownKeys parameterKeys spec = [] ∧ ∃ type : Option Builtin,
        Entries.lookup "type" spec = type.map (fun b ↦ .string b.name) ∧
        (∀ b v, type = some b → Entries.lookup "default" spec = some v →
          (Ty.ofBuiltin b).accepts v = true) ∧
        o = some ⟨name, (Entries.lookup "default" spec).getD .null, type.map Builtin.name⟩ := by
  have hunknown : ((Entries.keys spec).find? fun k ↦ !readsAs parameterKeys k) = none ↔
      unknownKeys parameterKeys spec = [] := by
    rw [List.find?_eq_none, unknownKeys, List.filter_eq_nil_iff]
  rw [parameter, ← hunknown]
  cases (Entries.keys spec).find? fun k ↦ !readsAs parameterKeys k with
  | some k => exact iff_of_false Checked.reject_ne_pure (by simp)
  | none =>
      simp only [Checked.bind_eq_pure_iff, parameterType_eq_pure_iff, true_and]
      constructor
      · rintro ⟨_, ⟨type, rfl, htype⟩, h⟩
        refine ⟨type, htype, ?_⟩
        cases type with
        | none => exact ⟨fun _ _ hb _ ↦ absurd hb nofun, (Checked.pure_inj.1 h).symm⟩
        | some b =>
            cases hd : Entries.lookup "default" spec with
            | none =>
                rw [hd] at h
                exact ⟨fun _ _ _ hv ↦ absurd hv nofun, (Checked.pure_inj.1 h).symm⟩
            | some v =>
                simp only [hd] at h
                split at h
                · rename_i hacc
                  refine ⟨fun c w hc hw ↦ ?_, (Checked.pure_inj.1 h).symm⟩
                  obtain rfl := Option.some.inj hc
                  obtain rfl := Option.some.inj hw
                  exact hacc
                · exact absurd h Checked.reject_ne_pure
      · rintro ⟨type, htype, haccepts, rfl⟩
        refine ⟨some type, ⟨type, rfl, htype⟩, ?_⟩
        cases type with
        | none => rfl
        | some b =>
            cases hd : Entries.lookup "default" spec with
            | none => rfl
            | some v => exact if_pos (haccepts b v rfl hd)

/-- A parameter that is read without problems takes its default. -/
theorem isWellTyped_of_parameter {name : String} {v : Value} {o : Option Parameter}
    (h : parameter name v = pure o) : ∃ p, o = some p ∧ p.name = name ∧ p.IsWellTyped := by
  cases v with
  | mapping spec =>
      obtain ⟨-, type, -, haccepts, rfl⟩ := parameter_mapping_eq_pure_iff.1 h
      refine ⟨_, rfl, rfl, fun t ht ↦ ?_⟩
      obtain ⟨b, rfl, rfl⟩ := Option.map_eq_some_iff.1 ht
      refine ⟨b, rfl, ?_⟩
      cases hd : Entries.lookup "default" spec with
      | none => exact .inl rfl
      | some v => exact .inr (haccepts b v rfl hd)
  | _ =>
      obtain rfl := Checked.pure_inj.1 h
      refine ⟨_, rfl, rfl, fun t ht ↦ ?_⟩
      cases ht

/-- A well-typed parameter is read from its specification. -/
theorem parameter_toValue {p : Parameter} (hp : p.IsWellTyped) :
    parameter p.name p.toValue = pure (some p) := by
  obtain ⟨name, default, typeName⟩ := p
  cases typeName with
  | none =>
      cases default with
      | null => rfl
      | _ => rfl
  | some t =>
      obtain ⟨b, rfl, hb⟩ := hp t rfl
      cases default with
      | null =>
          refine parameter_mapping_eq_pure_iff.2 ⟨rfl, some b, rfl, fun _ _ _ hv ↦ ?_, rfl⟩
          cases hv
      | _ =>
          refine parameter_mapping_eq_pure_iff.2 ⟨rfl, some b, rfl, fun c v hc hv ↦ ?_, rfl⟩
          obtain rfl := Option.some.inj hc
          obtain rfl := Option.some.inj hv
          exact hb.resolve_left Value.noConfusion

/-- Parameters that can be declared after these names. -/
structure AreDeclarable (seen : List String) (ps : List Parameter) : Prop where
  nodup : (ps.map Parameter.name).Nodup
  fresh : ∀ p ∈ ps, p.name ∉ seen
  undotted : ∀ p ∈ ps, IsUndotted p.name
  typed : ∀ p ∈ ps, p.IsWellTyped

theorem areDeclarable_nil (seen : List String) : AreDeclarable seen [] where
  nodup := List.nodup_nil
  fresh := List.forall_mem_nil _
  undotted := List.forall_mem_nil _
  typed := List.forall_mem_nil _

/-- The first of some parameters is declared, and the rest after it. -/
theorem areDeclarable_cons {seen : List String} {p : Parameter} {ps : List Parameter} :
    AreDeclarable seen (p :: ps) ↔
      (IsUndotted p.name ∧ p.name ∉ seen ∧ p.IsWellTyped) ∧ AreDeclarable (p.name :: seen) ps := by
  constructor
  · rintro ⟨hn, hf, hu, ht⟩
    obtain ⟨hp, hn⟩ := List.nodup_cons.1 hn
    obtain ⟨hpf, hf⟩ := List.forall_mem_cons.1 hf
    obtain ⟨hpu, hu⟩ := List.forall_mem_cons.1 hu
    obtain ⟨hpt, ht⟩ := List.forall_mem_cons.1 ht
    refine ⟨⟨hpu, hpf, hpt⟩, hn, fun q hq ↦ List.not_mem_cons_of_ne_of_not_mem ?_ (hf q hq), hu, ht⟩
    exact fun hqp ↦ hp (hqp ▸ List.mem_map_of_mem hq)
  · rintro ⟨⟨hpu, hpf, hpt⟩, hn, hf, hu, ht⟩
    have hne : ∀ q ∈ ps, q.name ≠ p.name ∧ q.name ∉ seen := fun q hq ↦
      List.ne_and_not_mem_of_not_mem_cons (hf q hq)
    refine ⟨List.nodup_cons.2 ⟨fun hp ↦ ?_, hn⟩,
      List.forall_mem_cons.2 ⟨hpf, fun q hq ↦ (hne q hq).2⟩,
      List.forall_mem_cons.2 ⟨hpu, hu⟩, List.forall_mem_cons.2 ⟨hpt, ht⟩⟩
    obtain ⟨q, hq, hqp⟩ := List.mem_map.1 hp
    exact (hne q hq).1 hqp

/-- Parameters with specifications can be declared, and each is read from its own entry. -/
theorem areDeclarable_of_parameterEntries {seen : List String} {es : Entries}
    {ps : List Parameter} (h : parameterEntries seen es = pure ps) : AreDeclarable seen ps ∧
      List.Forall₂ (fun e p ↦ e.1.text? = some p.name ∧ parameter p.name e.2 = pure (some p))
        es ps := by
  induction es generalizing seen ps with
  | nil =>
      obtain rfl := Checked.pure_inj.1 h
      exact ⟨areDeclarable_nil seen, .nil⟩
  | cons e es ih =>
      obtain ⟨key, spec⟩ := e
      rw [parameterEntries] at h
      split at h
      · exact absurd h Checked.note_bind_ne_pure
      · rename_i name hname
        obtain ⟨b, hb, h⟩ := Checked.bind_eq_pure_iff.1 h
        obtain ⟨rfl, hdot, hseen⟩ := declare_eq_pure_iff.1 hb
        obtain ⟨o, ho, hrest⟩ := Checked.bind_eq_pure_iff.1 h
        obtain ⟨p, rfl, rfl, htyped⟩ := isWellTyped_of_parameter ho
        obtain ⟨ps, hps, hp⟩ := Checked.bind_eq_pure_iff.1 hrest
        obtain rfl := Checked.pure_inj.1 hp
        obtain ⟨hdeclarable, hread⟩ := ih hps
        exact ⟨areDeclarable_cons.2 ⟨⟨hdot, hseen, htyped⟩, hdeclarable⟩, .cons ⟨hname, ho⟩ hread⟩

/-- Bare names are read like names with nothing under them. -/
theorem parameterNames_eq (seen : List String) (items : List Value) :
    parameterNames seen items = parameterEntries seen (items.map fun v ↦ (v, .null)) := by
  induction items generalizing seen with
  | nil => rfl
  | cons v items ih =>
      rw [parameterNames, List.map_cons, parameterEntries]
      cases v.text? with
      | none => simp only [ih]
      | some name => simp only [ih, parameter, pure_bind, Option.toList_some, List.singleton_append]

/-- Parameters that are read without problems have distinct names without dots. -/
theorem areDeclarable_of_parameters {v : Value} {ps : List Parameter}
    (h : parameters v = pure ps) : AreDeclarable [] ps := by
  cases v with
  | sequence items =>
      rw [parameters, parameterNames_eq] at h
      exact (areDeclarable_of_parameterEntries h).1
  | mapping es => exact (areDeclarable_of_parameterEntries h).1
  | _ => exact absurd h Checked.note_bind_ne_pure

/-- Parameters that can be declared are read from their specifications. -/
theorem parameterEntries_toValue {seen : List String} {ps : List Parameter}
    (h : AreDeclarable seen ps) :
    parameterEntries seen (ps.map fun p ↦ (.string p.name, p.toValue)) = pure ps := by
  induction ps generalizing seen with
  | nil => rfl
  | cons p ps ih =>
      obtain ⟨⟨hdot, hseen, htyped⟩, hps⟩ := areDeclarable_cons.1 h
      rw [List.map_cons, parameterEntries, Value.text?_string]
      simp only [declare_eq_pure_iff.2 ⟨rfl, hdot, hseen⟩, parameter_toValue htyped, ih hps,
        pure_bind]
      rfl

/-! ## Tasks -/

/-- No output is invalid if each is a name that can be referred to and is new. -/
theorem invalidOutput?_eq_none_iff {seen os : List String} : invalidOutput? seen os = none ↔
    os.Nodup ∧ ∀ o ∈ os, (o ≠ "" ∧ IsUndotted o) ∧ o ∉ seen := by
  induction os generalizing seen with
  | nil => simp [invalidOutput?]
  | cons o os ih =>
      have hvalid : (o.isEmpty || o.toList.contains '.' || seen.contains o) = true ↔
          ¬ ((o ≠ "" ∧ IsUndotted o) ∧ o ∉ seen) := by
        simp [IsUndotted, or_iff_not_imp_left]
      rw [invalidOutput?, List.nodup_cons, List.forall_mem_cons]
      split
      · rename_i h
        exact iff_of_false (by simp) fun hos ↦ hvalid.1 h hos.2.1
      · rename_i h
        rw [hvalid, not_not] at h
        rw [ih]
        constructor
        · rintro ⟨hn, hos⟩
          have hne : ∀ q ∈ os, q ≠ o ∧ q ∉ seen := fun q hq ↦
            List.ne_and_not_mem_of_not_mem_cons (hos q hq).2
          exact ⟨⟨fun ho ↦ (hne o ho).1 rfl, hn⟩, h, fun q hq ↦ ⟨(hos q hq).1, (hne q hq).2⟩⟩
        · rintro ⟨⟨ho, hn⟩, -, hos⟩
          refine ⟨hn, fun q hq ↦ ⟨(hos q hq).1, ?_⟩⟩
          refine List.not_mem_cons_of_ne_of_not_mem ?_ (hos q hq).2
          rintro rfl
          exact ho hq

theorem outputNames_ne_pure_none {task : String} {v : Value} :
    outputNames task v ≠ pure none := by
  cases v with
  | string s => simp [outputNames, Checked.pure_inj]
  | sequence items =>
      rw [outputNames]
      split
      · simp [Checked.pure_inj]
      · exact Checked.reject_ne_pure
  | _ => exact Checked.reject_ne_pure

/-- Outputs without problems are names that can be referred to, each given once. -/
theorem outputs_eq_pure_iff {task : String} {v : Value} {o : Option (List String)} :
    outputs task v = pure o ↔ ∃ os, o = some os ∧ outputNames task v = pure (some os) ∧
      os.Nodup ∧ ∀ o ∈ os, o ≠ "" ∧ IsUndotted o := by
  have hvalid (os : List String) : invalidOutput? [] os = none ↔
      os.Nodup ∧ ∀ o ∈ os, o ≠ "" ∧ IsUndotted o := by
    simp [invalidOutput?_eq_none_iff]
  simp only [outputs, Checked.bind_eq_pure_iff, ← hvalid]
  constructor
  · rintro ⟨names, hnames, h⟩
    cases names with
    | none => exact absurd hnames outputNames_ne_pure_none
    | some os =>
        cases hi : invalidOutput? [] os with
        | none =>
            simp only [hi, Checked.pure_inj] at h
            exact ⟨os, h.symm, hnames, hi⟩
        | some q =>
            simp only [hi] at h
            exact absurd h Checked.reject_ne_pure
  · rintro ⟨os, rfl, hnames, hi⟩
    refine ⟨some os, hnames, ?_⟩
    simp only [hi]

/-- A plugin without problems is the path of one. -/
theorem plugin_eq_pure_iff {task : String} {v : Option Value} {o : Option String} :
    plugin task v = pure o ↔ ∃ s, o = some s ∧ v = some (.string s) ∧ Plugin.isPath s = true := by
  cases v with
  | none => exact iff_of_false Checked.reject_ne_pure (by simp)
  | some v =>
      cases v with
      | string s =>
          rw [plugin]
          split
          · rename_i hs
            rw [Checked.pure_inj]
            constructor
            · rintro rfl
              exact ⟨s, rfl, rfl, hs⟩
            · rintro ⟨t, rfl, ht, -⟩
              rw [Value.string.inj (Option.some.inj ht)]
          · rename_i hs
            refine iff_of_false Checked.reject_ne_pure ?_
            rintro ⟨t, -, ht, hpath⟩
            obtain rfl := Value.string.inj (Option.some.inj ht)
            exact hs hpath
      | _ => exact iff_of_false Checked.reject_ne_pure (by simp)

/-- The outputs of a task, none if nothing is written. -/
def outputsIfAny (task : String) (v : Option Value) : Checked (Option (List String)) :=
  v.elim (pure (some [])) (outputs task)

theorem exists_of_outputsIfAny {task : String} {v : Option Value} {o : Option (List String)}
    (h : outputsIfAny task v = pure o) :
    ∃ os, o = some os ∧ os.Nodup ∧ ∀ o ∈ os, o ≠ "" ∧ IsUndotted o := by
  cases v with
  | none =>
      obtain rfl := Checked.pure_inj.1 h
      exact ⟨[], rfl, List.nodup_nil, List.forall_mem_nil _⟩
  | some v =>
      obtain ⟨os, rfl, -, hos⟩ := outputs_eq_pure_iff.1 h
      exact ⟨os, rfl, hos⟩

/-- A task is what its plugin and its outputs are read as, if its keys are known. -/
theorem task_mapping (name : String) (spec : Entries) : task name (.mapping spec) = do
    Checked.notes ((unknownKeys taskKeys spec).map fun k ↦ .unknownTaskKey k name)
    let p ← plugin name (Entries.lookup "plugin" spec)
    let os ← outputsIfAny name (Entries.lookup "outputs" spec)
    match p, os with
    | some p, some os =>
      return if (unknownKeys taskKeys spec).isEmpty then some ⟨name, p, os⟩ else none
    | _, _ => return none := by
  rw [task]
  cases Entries.lookup "outputs" spec with
  | none => rfl
  | some v => rfl

/-- A task without problems has known keys only, a plugin and valid outputs. -/
theorem task_mapping_eq_pure_iff {name : String} {spec : Entries} {o : Option TaskDecl} :
    task name (.mapping spec) = pure o ↔ unknownKeys taskKeys spec = [] ∧ ∃ p os,
      o = some ⟨name, p, os⟩ ∧ plugin name (Entries.lookup "plugin" spec) = pure (some p) ∧
      outputsIfAny name (Entries.lookup "outputs" spec) = pure (some os) := by
  simp only [task_mapping, Checked.bind_eq_pure_iff, Checked.notes_eq_pure_iff,
    List.map_eq_nil_iff, exists_const]
  refine and_congr_right fun hunknown ↦ ?_
  rw [hunknown]
  constructor
  · rintro ⟨p, hp, os, hos, h⟩
    obtain ⟨p, rfl, -⟩ := plugin_eq_pure_iff.1 hp
    obtain ⟨os, rfl, -⟩ := exists_of_outputsIfAny hos
    exact ⟨p, os, (Checked.pure_inj.1 h).symm, hp, hos⟩
  · rintro ⟨p, os, rfl, hp, hos⟩
    exact ⟨some p, hp, some os, hos, rfl⟩

/-- A task that is read without problems is well formed. -/
theorem isWellFormed_of_task {name : String} {v : Value} {o : Option TaskDecl}
    (h : task name v = pure o) : ∃ t, o = some t ∧ t.name = name ∧ t.IsWellFormed := by
  cases v with
  | mapping spec =>
      obtain ⟨-, p, os, rfl, hp, hos⟩ := task_mapping_eq_pure_iff.1 h
      obtain ⟨q, hq, -, hpath⟩ := plugin_eq_pure_iff.1 hp
      obtain ⟨ns, hns, hnodup, hvalid⟩ := exists_of_outputsIfAny hos
      obtain rfl := Option.some.inj hq
      obtain rfl := Option.some.inj hns
      exact ⟨_, rfl, rfl, hpath, hnodup, hvalid⟩
  | _ => exact absurd h Checked.reject_ne_pure

/-- A well-formed task is read from its specification. -/
theorem task_toValue {t : TaskDecl} (h : t.IsWellFormed) :
    task t.name t.toValue = pure (some t) := by
  obtain ⟨name, path, os⟩ := t
  refine task_mapping_eq_pure_iff.2 ⟨rfl, path, os, rfl, ?_, ?_⟩
  · exact plugin_eq_pure_iff.2 ⟨path, rfl, rfl, h.plugin⟩
  · refine outputs_eq_pure_iff.2 ⟨os, rfl, ?_, h.nodup, h.outputs⟩
    simp only [Value.ofStrings, outputNames, Value.mapM_text?_map_string]

theorem isWellFormed_of_taskEntry {e : Value × Value} {o : Option TaskDecl}
    (h : taskEntry e = pure o) : ∃ t, o = some t ∧ e.1.text? = some t.name ∧ t.IsWellFormed := by
  rw [taskEntry] at h
  split at h
  · exact absurd h Checked.reject_ne_pure
  · rename_i name hname
    obtain ⟨t, rfl, rfl, ht⟩ := isWellFormed_of_task h
    exact ⟨t, rfl, hname, ht⟩

/-- A section is read entry by entry if it is a mapping with entries; anything else is one
problem. -/
structure ReadsSection {α : Type} (read : Value → Checked (List α))
    (entry : Value × Value → Checked (Option α)) (p : Problem) : Prop where
  entries : ∀ e es, read (.mapping (e :: es)) =
    do let found ← Checked.forEach entry (e :: es); return found.filterMap id
  other : ∀ v, (∀ e es, v ≠ .mapping (e :: es)) → read v = do Checked.note p; return []

theorem readsSection_tasks : ReadsSection tasks taskEntry .tasksNotMapping where
  entries := fun _ _ ↦ rfl
  other := by
    intro v hv
    cases v with
    | mapping es =>
        cases es with
        | nil => rfl
        | cons e es => exact absurd rfl (hv e es)
    | _ => rfl

/-- A section without problems: a mapping, not empty, of which each entry is read as one thing. -/
theorem ReadsSection.eq_pure_iff {α : Type} {read : Value → Checked (List α)}
    {entry : Value × Value → Checked (Option α)} {p : Problem} (hread : ReadsSection read entry p)
    (hentry : ∀ e, entry e ≠ pure none) {v : Value} {as : List α} :
    read v = pure as ↔ ∃ es, v = .mapping es ∧ es ≠ [] ∧
      List.Forall₂ (fun e a ↦ entry e = pure (some a)) es as := by
  by_cases hv : ∃ e es, v = .mapping (e :: es)
  · obtain ⟨e, es, rfl⟩ := hv
    rw [hread.entries, Checked.filterMap_forEach_eq_pure_iff fun e _ ↦ hentry e]
    simp
  · rw [hread.other v fun e es h ↦ hv ⟨e, es, h⟩]
    refine iff_of_false Checked.note_bind_ne_pure ?_
    rintro ⟨es, rfl, hne, -⟩
    obtain ⟨e, es, rfl⟩ := List.exists_cons_of_ne_nil hne
    exact hv ⟨e, es, rfl⟩

/-- Tasks without problems: one task for each entry, and at least one. -/
theorem tasks_eq_pure_iff {v : Value} {ts : List TaskDecl} :
    tasks v = pure ts ↔ ∃ es, v = .mapping es ∧ es ≠ [] ∧
      List.Forall₂ (fun e t ↦ taskEntry e = pure (some t)) es ts := by
  refine readsSection_tasks.eq_pure_iff fun e h ↦ ?_
  obtain ⟨t, ht, -⟩ := isWellFormed_of_taskEntry h
  cases ht

theorem text?_of_taskEntry {e : Value × Value} {t : TaskDecl} (h : taskEntry e = pure (some t)) :
    e.1.text? = some t.name ∧ t.IsWellFormed := by
  obtain ⟨u, hu, ht⟩ := isWellFormed_of_taskEntry h
  obtain rfl := Option.some.inj hu
  exact ht

/-- What is read as tasks is declared under their names, in order. -/
theorem declaredTasks_of_tasks {root : Entries} {v : Value} {ts : List TaskDecl}
    (hv : Entries.lookup "tasks" root = some v) (h : tasks v = pure ts) :
    declaredTasks root = ts.map TaskDecl.name := by
  obtain ⟨es, rfl, -, hes⟩ := tasks_eq_pure_iff.1 h
  rw [declaredTasks, hv, Option.bind_some, Value.entries?_mapping,
    Entries.map_eq_names (hes.imp fun _ _ he ↦ (text?_of_taskEntry he).1), Entries.names_eq]

/-- Tasks read from a mapping are well formed, and at least one of them is there. -/
theorem isWellFormed_of_tasks {v : Value} (hv : v.HasPlainKeys) {ts : List TaskDecl}
    (h : tasks v = pure ts) :
    ts ≠ [] ∧ (ts.map TaskDecl.name).Nodup ∧ ∀ t ∈ ts, t.IsWellFormed := by
  obtain ⟨es, rfl, hne, hes⟩ := tasks_eq_pure_iff.1 h
  refine ⟨?_, hv.nodup (hes.imp fun _ _ he ↦ (text?_of_taskEntry he).1), fun t ht ↦ ?_⟩
  · rintro rfl
    exact hne (List.forall₂_nil_right_iff.1 hes)
  · obtain ⟨e, -, he⟩ := Checked.exists_of_forall₂ hes ht
    exact (text?_of_taskEntry he).2

/-- Well-formed tasks, at least one, are read from what they are written as. -/
theorem tasks_toValue {ts : List TaskDecl} (hne : ts ≠ []) (h : ∀ t ∈ ts, t.IsWellFormed) :
    tasks (.mapping (ts.map fun t ↦ (.string t.name, t.toValue))) = pure ts := by
  refine tasks_eq_pure_iff.2 ⟨_, rfl, by simpa using hne, ?_⟩
  rw [List.forall₂_map_left_iff, List.forall₂_same]
  exact fun t ht ↦ task_toValue (h t ht)

end LabPlan.Shape
