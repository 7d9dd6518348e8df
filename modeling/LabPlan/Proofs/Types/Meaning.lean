import LabPlan.Proofs.Description.Checked
import LabPlan.Proofs.Types.Comparison
import LabPlan.Types.Meaning

/-! # The meaning of a definition

The type that a definition describes depends only on what the names in it stand for: it exists if
each of them stands for a type, and it stays the same when more names come to stand for types. -/

namespace LabPlan

namespace Definition

/-- Induction over definitions and their members at once. -/
theorem induction {P : Definition → Prop} {Q : Member → Prop} (simple : ∀ s, P (.simple s))
    (list : ∀ m, Q m → P (.list m)) (tuple : ∀ ms, (∀ m ∈ ms, Q m) → P (.tuple ms))
    (fields : ∀ fs, (∀ f ∈ fs, Q f.2) → P (.fields fs))
    (keyed : ∀ k v, Q k → Q v → P (.keyed k v))
    (union : ∀ ms, (∀ m ∈ ms, Q m) → P (.union ms)) (named : ∀ n, Q (.named n))
    (inline : ∀ d, P d → Q (.inline d)) : (∀ d, P d) ∧ ∀ m, Q m := by
  have nil : ∀ m ∈ [], Q m := List.forall_mem_nil Q
  have cons (m : Member) (ms : List Member) (hm : Q m) (hms : ∀ m ∈ ms, Q m) :
      ∀ x ∈ m :: ms, Q x := List.forall_mem_cons.2 ⟨hm, hms⟩
  have nil' : ∀ f ∈ ([] : List (String × Member)), Q f.2 := List.forall_mem_nil _
  have cons' (f : String × Member) (fs : List (String × Member)) (hf : Q f.2)
      (hfs : ∀ f ∈ fs, Q f.2) : ∀ x ∈ f :: fs, Q x.2 := List.forall_mem_cons.2 ⟨hf, hfs⟩
  constructor
  · exact @Definition.rec P Q (fun ms ↦ ∀ m ∈ ms, Q m) (fun fs ↦ ∀ f ∈ fs, Q f.2) (fun f ↦ Q f.2)
      simple list tuple fields keyed union named inline nil cons nil' cons' fun _ _ h ↦ h
  · exact @Member.rec P Q (fun ms ↦ ∀ m ∈ ms, Q m) (fun fs ↦ ∀ f ∈ fs, Q f.2) (fun f ↦ Q f.2)
      simple list tuple fields keyed union named inline nil cons nil' cons' fun _ _ h ↦ h

end Definition

/-- What is collected item by item is the concatenation of what the items give. -/
theorem eq_flatMap {α β : Type} {f : α → List β} {g : List α → List β} (nil : g [] = [])
    (cons : ∀ a as, g (a :: as) = f a ++ g as) (as : List α) : g as = as.flatMap f := by
  induction as with
  | nil => exact nil
  | cons a as ih => rw [cons, ih, List.flatMap_cons]

namespace Member

theorem mentionsAll_eq (ms : List Member) : mentionsAll ms = ms.flatMap mentions :=
  eq_flatMap rfl (fun _ _ ↦ rfl) ms

theorem mentionsFields_eq (fs : List (String × Member)) :
    mentionsFields fs = fs.flatMap fun f ↦ f.2.mentions :=
  eq_flatMap rfl (fun ⟨_, _⟩ _ ↦ rfl) fs

theorem supersAll_eq (ms : List Member) : supersAll ms = ms.flatMap supers :=
  eq_flatMap rfl (fun _ _ ↦ rfl) ms

theorem supersFields_eq (fs : List (String × Member)) :
    supersFields fs = fs.flatMap fun f ↦ f.2.supers :=
  eq_flatMap rfl (fun ⟨_, _⟩ _ ↦ rfl) fs

theorem keysAll_eq (ms : List Member) : keysAll ms = ms.flatMap keys :=
  eq_flatMap rfl (fun _ _ ↦ rfl) ms

theorem keysFields_eq (fs : List (String × Member)) :
    keysFields fs = fs.flatMap fun f ↦ f.2.keys :=
  eq_flatMap rfl (fun ⟨_, _⟩ _ ↦ rfl) fs

theorem mem_mentionsAll {n : String} {ms : List Member} :
    n ∈ mentionsAll ms ↔ ∃ m ∈ ms, n ∈ m.mentions := by
  rw [mentionsAll_eq, List.mem_flatMap]

theorem mem_mentionsFields {n : String} {fs : List (String × Member)} :
    n ∈ mentionsFields fs ↔ ∃ f ∈ fs, n ∈ f.2.mentions := by
  rw [mentionsFields_eq, List.mem_flatMap]

variable {types types' : String → Option Ty}

theorem typesAll_congr {ms : List Member} (h : ∀ m ∈ ms, m.type? types = m.type? types') :
    typesAll types ms = typesAll types' ms := by
  induction ms with
  | nil => rfl
  | cons m ms ih =>
      obtain ⟨hm, hms⟩ := List.forall_mem_cons.1 h
      rw [typesAll, typesAll, hm, ih hms]

theorem typesFields_congr {fs : List (String × Member)}
    (h : ∀ f ∈ fs, f.2.type? types = f.2.type? types') :
    typesFields types fs = typesFields types' fs := by
  induction fs with
  | nil => rfl
  | cons f fs ih =>
      obtain ⟨hf, hfs⟩ := List.forall_mem_cons.1 h
      obtain ⟨x, m⟩ := f
      rw [typesFields, typesFields, typesField, typesField, hf, ih hfs]

theorem typesAll_eq_some_iff {ms : List Member} {ts : List Ty} :
    typesAll types ms = some ts ↔ List.Forall₂ (fun m t ↦ m.type? types = some t) ms ts := by
  induction ms generalizing ts with
  | nil =>
      rw [typesAll, List.forall₂_nil_left_iff, Option.some.injEq]
      exact eq_comm
  | cons m ms ih =>
      rw [typesAll, List.forall₂_cons_left_iff]
      simp [Option.bind_eq_some_iff, ih, @eq_comm _ ts]

theorem typesFields_eq_some_iff {fs : List (String × Member)} {gs : List (String × Ty)} :
    typesFields types fs = some gs ↔
      List.Forall₂ (fun f g ↦ f.1 = g.1 ∧ f.2.type? types = some g.2) fs gs := by
  induction fs generalizing gs with
  | nil =>
      rw [typesFields, List.forall₂_nil_left_iff, Option.some.injEq]
      exact eq_comm
  | cons f fs ih =>
      obtain ⟨field, m⟩ := f
      rw [typesFields, typesField, List.forall₂_cons_left_iff]
      simp [Option.bind_eq_some_iff, ih, @eq_comm _ gs]

theorem exists_of_typesAll {ms : List Member} {ts : List Ty} (h : typesAll types ms = some ts) :
    ∀ m ∈ ms, ∃ t, m.type? types = some t := by
  intro m hm
  obtain ⟨t, -, ht⟩ := Checked.exists_of_forall₂ (typesAll_eq_some_iff.1 h).flip hm
  exact ⟨t, ht⟩

theorem exists_of_typesFields {fs : List (String × Member)} {ts : List (String × Ty)}
    (h : typesFields types fs = some ts) : ∀ f ∈ fs, ∃ t, f.2.type? types = some t := by
  intro f hf
  obtain ⟨g, -, -, ht⟩ := Checked.exists_of_forall₂ (typesFields_eq_some_iff.1 h).flip hf
  exact ⟨g.2, ht⟩

end Member

/-! ## What a type depends on -/

section Types

variable {types types' : String → Option Ty}

theorem Definition.type?_congr_both :
    (∀ (d : Definition) (name : Option String), (∀ n ∈ d.mentions, types n = types' n) →
      d.type? types name = d.type? types' name) ∧
    ∀ m : Member, (∀ n ∈ m.mentions, types n = types' n) → m.type? types = m.type? types' := by
  have all (ms : List Member)
      (ih : ∀ m ∈ ms, (∀ n ∈ m.mentions, types n = types' n) → m.type? types = m.type? types')
      (h : ∀ n ∈ Member.mentionsAll ms, types n = types' n) :
      Member.typesAll types ms = Member.typesAll types' ms := by
    refine Member.typesAll_congr fun m hm ↦ ih m hm fun n hn ↦ ?_
    exact h n (Member.mem_mentionsAll.2 ⟨m, hm, hn⟩)
  refine Definition.induction ?simple ?list ?tuple ?fields ?keyed ?union ?named ?inline
  case simple =>
    intro s name h
    cases s with
    | none => rfl
    | some s => rw [Definition.type?, Definition.type?, h s List.mem_cons_self]
  case list =>
    intro m hm name h
    rw [Definition.type?, Definition.type?, hm h]
  case tuple =>
    intro ms hms name h
    rw [Definition.type?, Definition.type?, all ms hms h]
  case fields =>
    intro fs hfs name h
    have hfs : Member.typesFields types fs = Member.typesFields types' fs := by
      refine Member.typesFields_congr fun f hf ↦ hfs f hf fun n hn ↦ ?_
      exact h n (Member.mem_mentionsFields.2 ⟨f, hf, hn⟩)
    rw [Definition.type?, Definition.type?, hfs]
  case keyed =>
    intro k v hk hv name h
    have hk := hk fun n hn ↦ h n (List.mem_append_left _ hn)
    have hv := hv fun n hn ↦ h n (List.mem_append_right _ hn)
    rw [Definition.type?, Definition.type?, hk, hv]
  case union =>
    intro ms hms name h
    rw [Definition.type?, Definition.type?, all ms hms h]
  case named =>
    intro n h
    exact h n List.mem_cons_self
  case inline =>
    intro d hd h
    exact hd none h

theorem Definition.exists_of_type?_both :
    (∀ (d : Definition) (name : Option String) (t : Ty), d.type? types name = some t →
      ∀ n ∈ d.mentions, ∃ u, types n = some u) ∧
    ∀ (m : Member) (t : Ty), m.type? types = some t → ∀ n ∈ m.mentions, ∃ u, types n = some u := by
  have all (ms : List Member)
      (ih : ∀ m ∈ ms, ∀ t, m.type? types = some t → ∀ n ∈ m.mentions, ∃ u, types n = some u)
      (ts : List Ty) (h : Member.typesAll types ms = some ts) :
      ∀ n ∈ Member.mentionsAll ms, ∃ u, types n = some u := by
    intro n hn
    obtain ⟨m, hm, hn⟩ := Member.mem_mentionsAll.1 hn
    obtain ⟨t, ht⟩ := Member.exists_of_typesAll h m hm
    exact ih m hm t ht n hn
  refine Definition.induction ?simple ?list ?tuple ?fields ?keyed ?union ?named ?inline
  case simple =>
    intro s name t h n hn
    obtain rfl := Option.mem_toList.1 hn
    obtain ⟨u, hu, -⟩ := Option.map_eq_some_iff.1 h
    exact ⟨u, hu⟩
  case list =>
    intro m hm name t h
    obtain ⟨u, hu, -⟩ := Option.map_eq_some_iff.1 h
    exact hm u hu
  case tuple =>
    intro ms hms name t h
    obtain ⟨us, hus, -⟩ := Option.map_eq_some_iff.1 h
    exact all ms hms us hus
  case fields =>
    intro fs hfs name t h n hn
    obtain ⟨us, hus, -⟩ := Option.map_eq_some_iff.1 h
    obtain ⟨f, hf, hn⟩ := Member.mem_mentionsFields.1 hn
    obtain ⟨u, hu⟩ := Member.exists_of_typesFields hus f hf
    exact hfs f hf u hu n hn
  case keyed =>
    intro k v hk hv name t h n hn
    obtain ⟨u, hu, h⟩ := Option.bind_eq_some_iff.1 h
    obtain ⟨w, hw, -⟩ := Option.map_eq_some_iff.1 h
    rcases List.mem_append.1 hn with hn | hn
    · exact hk u hu n hn
    · exact hv w hw n hn
  case union =>
    intro ms hms name t h
    obtain ⟨us, hus, -⟩ := Option.map_eq_some_iff.1 h
    exact all ms hms us hus
  case named =>
    intro m t h n hn
    obtain rfl := List.mem_singleton.1 hn
    exact ⟨t, h⟩
  case inline =>
    intro d hd t h
    exact hd none t h

/-- Every name in a definition that has a type stands for a type. -/
theorem Definition.exists_of_type? {d : Definition} {name : Option String} {t : Ty}
    (h : d.type? types name = some t) : ∀ n ∈ d.mentions, ∃ u, types n = some u :=
  Definition.exists_of_type?_both.1 d name t h

/-- A definition keeps its type when more names come to stand for types. -/
theorem Definition.type?_mono {d : Definition} {name : Option String} {t : Ty}
    (h : d.type? types name = some t) (hle : ∀ n u, types n = some u → types' n = some u) :
    d.type? types' name = some t := by
  rw [← h]
  refine (Definition.type?_congr_both.1 d name fun n hn ↦ ?_).symm
  obtain ⟨u, hu⟩ := Definition.exists_of_type?_both.1 d name t h n hn
  rw [hu, hle n u hu]

theorem Member.type?_mono {m : Member} {t : Ty} (h : m.type? types = some t)
    (hle : ∀ n u, types n = some u → types' n = some u) : m.type? types' = some t := by
  rw [← h]
  refine (Definition.type?_congr_both.2 m fun n hn ↦ ?_).symm
  obtain ⟨u, hu⟩ := Definition.exists_of_type?_both.2 m t h n hn
  rw [hu, hle n u hu]

/-- The type of a definition has its name, and is simple if the definition is. -/
theorem Definition.name_and_isSimple_of_type? {d : Definition} {name : Option String} {t : Ty}
    (h : d.type? types name = some t) : t.name = name ∧ t.isSimple = d.isSimple := by
  match d with
  | .simple none =>
      obtain rfl := Option.some.inj h
      exact ⟨rfl, rfl⟩
  | .simple (some s) | .list m | .tuple ms | .fields fs | .union ms =>
      obtain ⟨u, -, rfl⟩ := Option.map_eq_some_iff.1 h
      exact ⟨rfl, rfl⟩
  | .keyed k v =>
      obtain ⟨u, -, h⟩ := Option.bind_eq_some_iff.1 h
      obtain ⟨w, -, rfl⟩ := Option.map_eq_some_iff.1 h
      exact ⟨rfl, rfl⟩

end Types

end LabPlan
