import LabPlan.Proofs.Entries
import LabPlan.Proofs.Types.Resolution
import LabPlan.Types.Form

/-! # Reading definitions

What each kind of definition is read from.  A definition has members, as a type has parts, and every
member is read from a value inside the value of the definition.  Members in place are never simple,
so that only a declared type can have a super-type; what is read can be written again if no mapping
has two keys of the same text. -/

namespace LabPlan

/-- No mapping in the value has two keys of one text. -/
def Value.NamesDistinct : Value → Prop := Everywhere fun u ↦ u.ownEntries.NamesDistinct

namespace Definition

variable {name : Option String} {es : Entries} {v : Value} {d : Definition} {m : Member}
  {s : String}

/-! ## Members -/

/-- The members that a definition is directly made of: its super-type, its key and value, or its
members in order. -/
def members : Definition → List Member
  | .simple s => s.toList.map .named
  | .list m => [m]
  | .tuple ms | .union ms => ms
  | .fields fs => fs.map Prod.snd
  | .keyed k v => [k, v]

/-- The super-type of a simple definition. -/
def super? : Definition → Option String
  | .simple s => s
  | _ => none

/-- The key of a mapping. -/
def key? : Definition → Option Member
  | .keyed k _ => some k
  | _ => none

/-- Induction on the definitions in place. -/
theorem members_induction {P : Definition → Prop}
    (h : ∀ d, (∀ e, .inline e ∈ d.members → P e) → P d) (d : Definition) : P d := by
  have of {d : Definition} (hd : ∀ m ∈ d.members, ∀ e, m = .inline e → P e) : P d :=
    h d fun e he ↦ hd _ he e rfl
  refine (Definition.induction (Q := fun m ↦ ∀ e, m = .inline e → P e) ?simple ?list ?tuple
    ?fields ?keyed ?union ?named ?inline).1 d
  case simple =>
    intro s
    refine of fun m hm e he ↦ ?_
    obtain ⟨n, -, rfl⟩ := List.mem_map.1 hm
    cases he
  case list => exact fun m hm ↦ of (List.forall_mem_singleton.2 hm)
  case tuple => exact fun ms hms ↦ of hms
  case fields => exact fun fs hfs ↦ of (List.forall_mem_map.2 hfs)
  case keyed =>
    exact fun k v hk hv ↦ of (List.forall_mem_cons.2 ⟨hk, List.forall_mem_singleton.2 hv⟩)
  case union => exact fun ms hms ↦ of hms
  case named =>
    intro n e he
    cases he
  case inline =>
    intro d hd e he
    obtain rfl := Member.inline.inj he
    exact hd

/-- A definition mentions what its members mention. -/
theorem mentions_eq (d : Definition) : d.mentions = d.members.flatMap Member.mentions := by
  cases d with
  | simple s => cases s <;> rfl
  | list m => simp [mentions, members]
  | tuple ms => exact Member.mentionsAll_eq ms
  | fields fs => simp [mentions, members, Member.mentionsFields_eq, List.flatMap_map]
  | keyed k v => simp [mentions, members]
  | union ms => exact Member.mentionsAll_eq ms

theorem mentions_subset (h : m ∈ d.members) : m.mentions ⊆ d.mentions := by
  intro n hn
  rw [mentions_eq]
  exact List.mem_flatMap_of_mem h hn

/-- The super-types in a definition are its own and those in its members. -/
theorem supers_eq (d : Definition) :
    d.supers = d.super?.toList ++ d.members.flatMap Member.supers := by
  cases d with
  | simple s => cases s <;> rfl
  | list m => simp [supers, super?, members]
  | tuple ms => exact Member.supersAll_eq ms
  | fields fs => simp [supers, super?, members, Member.supersFields_eq, List.flatMap_map]
  | keyed k v => simp [supers, super?, members]
  | union ms => exact Member.supersAll_eq ms

/-- The keys in a definition are its own and those in its members. -/
theorem keys_eq (d : Definition) : d.keys = d.key?.toList ++ d.members.flatMap Member.keys := by
  cases d with
  | simple s => cases s <;> rfl
  | list m => simp [keys, key?, members]
  | tuple ms => exact Member.keysAll_eq ms
  | fields fs => simp [keys, key?, members, Member.keysFields_eq, List.flatMap_map]
  | keyed k v => simp [keys, key?, members]
  | union ms => exact Member.keysAll_eq ms

theorem supers_subset (h : m ∈ d.members) : m.supers ⊆ d.supers := by
  intro s hs
  rw [supers_eq]
  exact List.mem_append_right _ (List.mem_flatMap_of_mem h hs)

theorem keys_subset (h : m ∈ d.members) : m.keys ⊆ d.keys := by
  intro k hk
  rw [keys_eq]
  exact List.mem_append_right _ (List.mem_flatMap_of_mem h hk)

/-- A definition can be written if its members can, its fields have distinct names, and it is no
union of nothing. -/
theorem isWellFormed_iff : d.isWellFormed = true ↔
    (∀ fs, d = .fields fs → (fs.map Prod.fst).Nodup) ∧ d ≠ .union [] ∧
      ∀ m ∈ d.members, m.isWellFormed = true := by
  cases d with
  | simple s => cases s <;> simp [isWellFormed, members, Member.isWellFormed]
  | list m => simp [isWellFormed, members]
  | tuple ms => simp [isWellFormed, members, Member.areWellFormed_eq]
  | fields fs =>
      have hall : Member.fieldsWellFormed fs = true ↔
          ∀ m ∈ fs.map Prod.snd, m.isWellFormed = true := by
        rw [Member.fieldsWellFormed_eq, List.all_eq_true, List.forall_mem_map]
      simp [isWellFormed, members, hall]
  | keyed k v => simp [isWellFormed, members]
  | union ms => simp [isWellFormed, members, Member.areWellFormed_eq]

/-! ## What is read -/

/-- The entries are those of a mapping that is read as the definition: its outline has the content
from which the members are read. -/
def IsReadFrom (name : Option String) (es : Entries) : Definition → Prop
  | .simple s => outline name es = .ok (.simple (s.map .string))
  | .list m => ∃ v, outline name es = .ok (.list v) ∧ Member.ofValue name v = .ok m
  | .tuple ms => ∃ vs, outline name es = .ok (.tuple (.sequence vs)) ∧
      List.Forall₂ (fun v m ↦ Member.ofValue name v = .ok m) vs ms
  | .fields fs => ∃ gs, outline name es = .ok (.mapping (.mapping gs)) ∧
      List.Forall₂ (fun e f ↦ e.1.text? = some f.1 ∧ Member.ofValue name e.2 = .ok f.2) gs fs
  | .keyed k v => ∃ x y, outline name es = .ok (.mapping (.sequence [x, y])) ∧
      Member.ofValue name x = .ok k ∧ Member.ofValue name y = .ok v
  | .union ms => ms ≠ [] ∧ ∃ vs, outline name es = .ok (.union (.sequence vs)) ∧
      List.Forall₂ (fun v m ↦ Member.ofValue name v = .ok m) vs ms

end Definition

namespace Member

variable {owner : Option String}

theorem listOfValues_eq_ok_iff {vs : List Value} {ms : List Member} :
    listOfValues owner vs = .ok ms ↔ List.Forall₂ (fun v m ↦ ofValue owner v = .ok m) vs ms := by
  induction vs generalizing ms with
  | nil =>
      rw [listOfValues, List.forall₂_nil_left_iff, Except.ok.injEq]
      exact eq_comm
  | cons v vs ih =>
      rw [listOfValues, List.forall₂_cons_left_iff]
      cases ofValue owner v with
      | error e => simp
      | ok m => simp [map_eq_ok_iff, ih, @eq_comm _ ms]

theorem fieldsOfEntries_eq_ok_iff {es : Entries} {fs : List (String × Member)} :
    fieldsOfEntries owner es = .ok fs ↔
      List.Forall₂ (fun e f ↦ e.1.text? = some f.1 ∧ ofValue owner e.2 = .ok f.2) es fs := by
  induction es generalizing fs with
  | nil =>
      rw [fieldsOfEntries, List.forall₂_nil_left_iff, Except.ok.injEq]
      exact eq_comm
  | cons e es ih =>
      obtain ⟨k, v⟩ := e
      rw [fieldsOfEntries, List.forall₂_cons_left_iff]
      cases k.text? with
      | none => simp
      | some s =>
          cases ofValue owner v with
          | error e => simp
          | ok m => simp [map_eq_ok_iff, ih, @eq_comm _ fs]

end Member

namespace Definition

variable {name : Option String} {es : Entries} {v : Value} {d : Definition} {m : Member}

/-- What a mapping is read as is read from its entries. -/
theorem isReadFrom_of_ofValue (h : ofValue name (.mapping es) = .ok d) : IsReadFrom name es d := by
  -- One case for each outline, those with content of the wrong form among them.
  rw [ofValue] at h
  split at h
  · cases h
  · rename_i ho
    obtain rfl := Except.ok.inj h
    exact ho
  · rename_i s ho
    obtain rfl := Except.ok.inj h
    exact ho
  · cases h
  · rename_i v ho
    obtain ⟨m, hm, rfl⟩ := map_eq_ok_iff.1 h
    exact ⟨v, ho, hm⟩
  · rename_i vs ho
    obtain ⟨ms, hms, rfl⟩ := map_eq_ok_iff.1 h
    exact ⟨vs, ho, Member.listOfValues_eq_ok_iff.1 hms⟩
  · cases h
  · rename_i vs ho
    split at h
    · cases h
    · rename_i ms hne hms
      obtain rfl := Except.ok.inj h
      exact ⟨fun hnil ↦ hne (hnil ▸ rfl), vs, ho, Member.listOfValues_eq_ok_iff.1 hms⟩
    · cases h
  · cases h
  · rename_i fs ho
    obtain ⟨ms, hms, rfl⟩ := map_eq_ok_iff.1 h
    exact ⟨fs, ho, Member.fieldsOfEntries_eq_ok_iff.1 hms⟩
  · rename_i x y ho
    split at h
    · cases h
    · rename_i k hk
      obtain ⟨v, hv, rfl⟩ := map_eq_ok_iff.1 h
      exact ⟨x, y, ho, hk, hv⟩
  · cases h

/-- What is read as a definition is nothing or a mapping. -/
theorem ofValue_cases (h : ofValue name v = .ok d) :
    v = .null ∧ d = .simple none ∨ ∃ es, v = .mapping es ∧ IsReadFrom name es d := by
  cases v with
  | null =>
      rw [ofValue] at h
      exact .inl ⟨rfl, (Except.ok.inj h).symm⟩
  | mapping es => exact .inr ⟨es, rfl, isReadFrom_of_ofValue h⟩
  | _ => simp [ofValue] at h

/-- The content of an outline stands inside the mapping. -/
theorem within_of_outline {o : Outline} (h : outline name es = .ok o) (hv : o.content = some v) :
    v.Within (.mapping es) := by
  obtain ⟨key, hkey⟩ := lookup_of_outline h hv
  exact .value (Entries.mem_of_lookup hkey) (.refl v)

end Definition

/-- A definition in place is read from its value, and is not simple. -/
theorem Member.ofValue_inline {owner : Option String} {v : Value} {d : Definition}
    (h : Member.ofValue owner v = .ok (.inline d)) :
    Definition.ofValue none v = .ok d ∧ d.isSimple = false := by
  rw [Member.ofValue.eq_def] at h
  split at h
  · cases h
  · split at h
    · cases h
    · rename_i es e he
      split at h
      · cases h
      · rename_i hsimple
        obtain rfl := Member.inline.inj (Except.ok.inj h)
        exact ⟨he, Bool.eq_false_iff.2 hsimple⟩
  · cases h
  · cases h

namespace Definition

variable {name : Option String} {es : Entries} {v : Value} {d e : Definition}

/-- Every member in place is read from a value inside. -/
theorem exists_of_inline_mem (h : ofValue name v = .ok d) (he : .inline e ∈ d.members) :
    e.isSimple = false ∧ ∃ w, w.Within v ∧ ofValue none w = .ok e := by
  obtain ⟨w, hw, hread⟩ : ∃ w, w.Within v ∧ Member.ofValue name w = .ok (.inline e) := by
    rcases ofValue_cases h with ⟨rfl, rfl⟩ | ⟨es, rfl, hread⟩
    · exact absurd he List.not_mem_nil
    cases d with
    | simple s => simp [members] at he
    | list m =>
        obtain ⟨w, ho, hw⟩ := hread
        obtain rfl := List.mem_singleton.1 he
        exact ⟨w, within_of_outline ho rfl, hw⟩
    | tuple ms =>
        obtain ⟨vs, ho, hvs⟩ := hread
        obtain ⟨w, hmem, hw⟩ := Checked.exists_of_forall₂ hvs he
        exact ⟨w, .trans (.item hmem (.refl w)) (within_of_outline ho rfl), hw⟩
    | fields fs =>
        obtain ⟨gs, ho, hgs⟩ := hread
        obtain ⟨f, hf, hfe⟩ := List.mem_map.1 he
        obtain ⟨g, hmem, -, hw⟩ := Checked.exists_of_forall₂ hgs hf
        exact ⟨g.2, .trans (.value hmem (.refl g.2)) (within_of_outline ho rfl), hfe ▸ hw⟩
    | keyed k u =>
        obtain ⟨x, y, ho, hx, hy⟩ := hread
        have hin := within_of_outline ho rfl
        rcases List.mem_pair.1 he with rfl | rfl
        · exact ⟨x, .trans (.item List.mem_cons_self (.refl x)) hin, hx⟩
        · exact ⟨y, .trans (.item (List.mem_cons_of_mem _ List.mem_cons_self) (.refl y)) hin, hy⟩
    | union ms =>
        obtain ⟨-, vs, ho, hvs⟩ := hread
        obtain ⟨w, hmem, hw⟩ := Checked.exists_of_forall₂ hvs he
        exact ⟨w, .trans (.item hmem (.refl w)) (within_of_outline ho rfl), hw⟩
  obtain ⟨hd, hsimple⟩ := Member.ofValue_inline hread
  exact ⟨hsimple, w, hw, hd⟩

/-- Only the definition itself can have a super-type. -/
theorem eq_simple_of_mem_supers {s : String} (h : ofValue name v = .ok d) (hs : s ∈ d.supers) :
    d = .simple (some s) := by
  induction d using members_induction generalizing name v with
  | h d ih =>
      rw [supers_eq, List.mem_append, List.mem_flatMap] at hs
      rcases hs with hs | ⟨m, hm, hs⟩
      · match d with
        | .simple t => exact congrArg Definition.simple (Option.mem_toList.1 hs)
      · match m with
        | .inline e =>
            obtain ⟨hsimple, w, -, he⟩ := exists_of_inline_mem h hm
            obtain rfl := ih e hm he hs
            cases hsimple

/-- What is read can be written if its fields have distinct names and its members in place can be
written. -/
theorem isWellFormed_of_ofValue (h : ofValue name v = .ok d)
    (hfields : ∀ fs, d = .fields fs → (fs.map Prod.fst).Nodup)
    (hinline : ∀ e, .inline e ∈ d.members → e.isWellFormed = true) : d.isWellFormed = true := by
  refine isWellFormed_iff.2 ⟨hfields, ?_, fun m hm ↦ ?_⟩
  · rintro rfl
    rcases ofValue_cases h with ⟨-, hd⟩ | ⟨es, -, hread⟩
    · cases hd
    · exact hread.1 rfl
  · match m with
    | .named n => rfl
    | .inline e =>
        rw [Member.isWellFormed, (exists_of_inline_mem h hm).1, hinline e hm]
        rfl

/-- What is read from a value in which no mapping has two keys of one text can be written. -/
theorem isWellFormed_of_namesDistinct (hv : v.NamesDistinct) (h : ofValue name v = .ok d) :
    d.isWellFormed = true := by
  induction d using members_induction generalizing name v with
  | h d ih =>
      refine isWellFormed_of_ofValue h ?_ fun e he ↦ ?_
      · rintro fs rfl
        rcases ofValue_cases h with ⟨-, hd⟩ | ⟨es, rfl, gs, ho, hgs⟩
        · cases hd
        · rw [Entries.map_eq_names (hgs.imp fun _ _ hg ↦ hg.1)]
          exact (hv.within (within_of_outline ho rfl)).here
      · obtain ⟨-, w, hw, he'⟩ := exists_of_inline_mem h he
        exact ih e he (hv.within hw) he'

end Definition

end LabPlan
