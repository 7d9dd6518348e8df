import LabPlan.Proofs.Types.Failures
import LabPlan.Types.Resolver

/-! # What the stack of resolution holds

Wherever the machine stands, the names on its stack are a trail, and the table does not know them
yet.  A call leads to what resolution gives for its table and its path, so it always returns, and
with a type it leaves the stack as it was.  Every frame that waits for the type of a name belongs to
one name on the stack, and the frames alone say which names these are. -/

namespace LabPlan

namespace Resolver

open Registry (ComesUp Extends IsDeclared IsTrail)
open Relation

variable {decls : Declarations} {path path' : List String} {k : List Frame} {c c' : Config}
  {known : Known} {n : String} {t : Ty} {s : State}

/-! ## What a call leads to -/

/-- What resolution gives for a call, by the path and the table. -/
def Call.run (decls : Declarations) (path : List String) (known : Known) :
    Call → Except TypeError (Ty × Known)
  | .resolve n => Registry.resolve decls path known n
  | .build type d => Registry.build decls path known type d

theorem Call.run_ofMember (m : Member) :
    (Call.ofMember m).run decls path known = Registry.resolveMember decls path known m := by
  cases m with
  | named n => rw [Registry.resolveMember, ofMember, run]
  | inline d => rw [Registry.resolveMember, ofMember, run]

/-- The machine gets to where the type comes back to the frames, with this path on the stack; or to
where the failure does. -/
def Leads (decls : Declarations) (c : Config) (path : List String) (k : List Frame) :
    Except TypeError (Ty × Known) → Prop
  | .ok r => Steps decls c (.back r.1 ⟨r.2, path⟩ k)
  | .error e => ∃ s, Steps decls c (.failed e s k)

namespace Leads

variable {x : Except TypeError (Ty × Known)} {f : Frame}

theorem trans (h : Steps decls c c') (hx : Leads decls c' path k x) : Leads decls c path k x := by
  cases x with
  | ok r => exact ReflTransGen.trans h hx
  | error e =>
      obtain ⟨s, hs⟩ := hx
      exact ⟨s, ReflTransGen.trans h hs⟩

theorem head (h : step decls c = some c') (hx : Leads decls c' path k x) :
    Leads decls c path k x := trans (ReflTransGen.single h) hx

/-- What comes back to a frame goes on from there; a failure passes it. -/
theorem bind {g : Ty × Known → Except TypeError (Ty × Known)} (hx : Leads decls c path' (f :: k) x)
    (hg : ∀ r, Leads decls (backStep r.1 ⟨r.2, path'⟩ k f) path k (g r)) :
    Leads decls c path k (x.bind g) := by
  cases x with
  | ok r => exact trans (ReflTransGen.tail hx rfl) (hg r)
  | error e =>
      obtain ⟨s, hs⟩ := hx
      exact ⟨s, hs.tail rfl⟩

/-- A frame that only makes a type of what comes back to it. -/
theorem map {g : Ty × Known → Ty × Known} (hx : Leads decls c path' (f :: k) x)
    (hg : ∀ r, backStep r.1 ⟨r.2, path'⟩ k f = .back (g r).1 ⟨(g r).2, path⟩ k) :
    Leads decls c path k (x.map g) := by
  rw [map_eq_bind]
  refine hx.bind fun r ↦ ?_
  rw [hg]
  exact ReflTransGen.refl

end Leads

/-- Wherever the call is made with this path on the stack, it leads to what resolution gives. -/
def Returns (decls : Declarations) (path : List String) (c : Call) : Prop :=
  ∀ known k, Leads decls (.call c ⟨known, path⟩ k) path k (c.run decls path known)

theorem Returns.member {m : Member} (h : Returns decls path (.ofMember m)) (known : Known)
    (k : List Frame) : Leads decls (.call (.ofMember m) ⟨known, path⟩ k) path k
      (Registry.resolveMember decls path known m) := by
  rw [← Call.run_ofMember]
  exact h known k

theorem membersStep_leads {ms : List Member} (h : ∀ m ∈ ms, Returns decls path (.ofMember m))
    (make : List Ty → Ty) (before : List Ty) (known : Known) (k : List Frame) :
    Leads decls (membersStep make before ms ⟨known, path⟩ k) path k
      ((Registry.resolveMembers decls path known ms).map fun r ↦ (make (before ++ r.1), r.2)) := by
  induction ms generalizing before known with
  | nil =>
      simp only [Registry.resolveMembers, Except.map, List.append_nil]
      exact ReflTransGen.refl
  | cons m ms ih =>
      obtain ⟨hm, hms⟩ := List.forall_mem_cons.1 h
      rw [Registry.resolveMembers_cons, map_of_bind]
      refine Leads.bind (hm.member known (.members make before ms :: k)) fun r ↦ ?_
      have hms := ih hms (before ++ [r.1]) r.2
      simp only [List.append_assoc, List.singleton_append] at hms
      rw [map_of_map]
      exact hms

theorem fieldsStep_leads {fs : List (String × Member)}
    (h : ∀ f ∈ fs, Returns decls path (.ofMember f.2)) (type : Option String)
    (before : List (String × Ty)) (known : Known) (k : List Frame) :
    Leads decls (fieldsStep type before fs ⟨known, path⟩ k) path k
      ((Registry.resolveFields decls path known fs).map fun r ↦
        (.fields type (before ++ r.1), r.2)) := by
  induction fs generalizing before known with
  | nil =>
      simp only [Registry.resolveFields, Except.map, List.append_nil]
      exact ReflTransGen.refl
  | cons f fs ih =>
      obtain ⟨field, m⟩ := f
      obtain ⟨hm, hfs⟩ := List.forall_mem_cons.1 h
      rw [Registry.resolveFields_cons, map_of_bind]
      refine Leads.bind (hm.member known (.fields type before field fs :: k)) fun r ↦ ?_
      have hfs := ih hfs (before ++ [(field, r.1)]) r.2
      simp only [List.append_assoc, List.singleton_append] at hfs
      rw [map_of_map]
      exact hfs

/-- A call for a definition or for a member returns if the calls for names do. -/
theorem build_returns_both (h : ∀ n, Returns decls path (.resolve n)) :
    (∀ (d : Definition) (type : Option String), Returns decls path (.build type d)) ∧
    ∀ m : Member, Returns decls path (.ofMember m) := by
  refine Definition.induction ?simple ?list ?tuple ?fields ?keyed ?union ?named ?inline
  case simple =>
    intro s type known k
    cases s with
    | none =>
        rw [Call.run, Registry.build]
        exact ReflTransGen.single rfl
    | some n =>
        rw [Call.run, Registry.build_simple_some, map_of_bind]
        have hn := h n known (.super type n :: k)
        refine .head rfl (hn.bind fun r ↦ ?_)
        rw [backStep]
        split
        · exact ReflTransGen.refl
        · exact ⟨_, ReflTransGen.refl⟩
  case list =>
    intro m hm type known k
    rw [Call.run, Registry.build_list]
    have hm := hm.member known (.list type :: k)
    exact .head rfl (hm.map fun r ↦ rfl)
  case tuple =>
    intro ms hms type known k
    rw [Call.run, Registry.build_tuple]
    have hms := membersStep_leads hms (.tuple type) [] known k
    exact .head rfl hms
  case fields =>
    intro fs hfs type known k
    rw [Call.run, Registry.build_fields]
    have hfs := fieldsStep_leads hfs type [] known k
    exact .head rfl hfs
  case keyed =>
    intro m v hm hv type known k
    have hm := hm.member known (.key type v :: k)
    rw [Call.run, Registry.build_keyed, bind_of_bind]
    refine .head rfl (hm.bind fun r ↦ ?_)
    rw [backStep]
    split
    · have hv := hv.member r.2 (.value type r.1 :: k)
      exact hv.map fun r' ↦ rfl
    · exact ⟨_, ReflTransGen.refl⟩
  case union =>
    intro ms hms type known k
    rw [Call.run, Registry.build_union]
    have hms := membersStep_leads hms (.union type) [] known k
    exact .head rfl hms
  case named =>
    intro n
    exact h n
  case inline =>
    intro d hd
    exact hd none

/-- A call for a name returns. -/
theorem resolve_returns (path : List String) (n : String) : Returns decls path (.resolve n) := by
  -- By the declared names that are ahead: each step down puts one of them on the stack.
  have hdown {d : Definition} (hd : decls.lookup n = some d) (hn : path.contains n = false) :
      Returns decls (path ++ [n]) (.build (some n) d) :=
    (build_returns_both (resolve_returns (path ++ [n]))).1 d (some n)
  intro known k
  refine .head rfl ?_
  rw [Call.run, Registry.resolve]
  split
  · rename_i hk
    simp only [resolveStep, hk]
    exact ReflTransGen.refl
  · rename_i hk
    split
    · rename_i hn
      simp only [resolveStep, hk, hn, if_true]
      exact ⟨_, ReflTransGen.refl⟩
    · rename_i hn
      split
      · rename_i hd
        simp only [resolveStep, hk, hn, Bool.false_eq_true, if_false, hd]
        exact ⟨_, ReflTransGen.refl⟩
      · rename_i d hd
        simp only [resolveStep, hk, hn, Bool.false_eq_true, if_false, hd]
        have hb : Leads decls (.call (.build (some n) d) ⟨known, path ++ [n]⟩ (.register n :: k))
            path k ((Registry.build decls (path ++ [n]) known (some n) d).map fun r ↦
              (r.1, (n, r.1) :: r.2)) := by
          refine Leads.map (hdown hd hn known (.register n :: k)) fun r ↦ ?_
          rw [backStep, List.dropLast_concat]
        cases hr : Registry.build decls (path ++ [n]) known (some n) d with
        | error e =>
            rw [hr] at hb
            exact hb
        | ok r =>
            rw [hr] at hb
            exact hb
termination_by Registry.ahead decls path
decreasing_by exact Registry.ahead_append_lt hd hn

/-- Every call returns. -/
theorem Call.returns (c : Call) : Returns decls path c := by
  cases c with
  | resolve n => exact resolve_returns path n
  | build type d => exact (build_returns_both (resolve_returns path)).1 d type

/-- The machine stops, with the table or with an error. -/
def Stops (decls : Declarations) (c : Config) : Except TypeError Known → Prop
  | .ok known => Steps decls c (.done known)
  | .error e => ∃ s, Steps decls c (.failed e s [])

theorem Stops.trans {x : Except TypeError Known} (h : Steps decls c c') (hx : Stops decls c' x) :
    Stops decls c x := by
  cases x with
  | ok known => exact ReflTransGen.trans h hx
  | error e =>
      obtain ⟨s, hs⟩ := hx
      exact ⟨s, ReflTransGen.trans h hs⟩

theorem namesStep_stops (names : List String) (known : Known) :
    Stops decls (namesStep names ⟨known, []⟩ []) (Registry.resolveAll decls known names) := by
  induction names generalizing known with
  | nil => exact ReflTransGen.refl
  | cons n ns ih =>
      have hn : Leads decls (.call (.resolve n) ⟨known, []⟩ [.next ns]) [] [.next ns]
          (Registry.resolve decls [] known n) := Call.returns (.resolve n) known _
      rw [Registry.resolveAll]
      split
      · rename_i e he
        rw [he] at hn
        obtain ⟨s, hs⟩ := hn
        exact ⟨s, hs.tail rfl⟩
      · rename_i t known' hr
        rw [hr] at hn
        exact .trans (ReflTransGen.tail hn rfl) (ih known')

/-! ## What the frames say of the stack -/

/-- The name whose type the frame waits for. -/
def Frame.name? : Frame → Option String
  | .register n => some n
  | _ => none

/-- The names that the frame has still to ask for. -/
def Frame.pending : Frame → List String
  | .members _ _ rest => Member.mentionsAll rest
  | .fields _ _ _ rest => Member.mentionsFields rest
  | .key _ v => v.mentions
  | .next names => names
  | _ => []

/-- The names that the call can ask for. -/
def Call.names : Call → List String
  | .resolve n => [n]
  | .build _ d => d.mentions

theorem Call.names_ofMember (m : Member) : (Call.ofMember m).names = m.mentions := by
  cases m with
  | named n => rw [ofMember, names, Member.mentions]
  | inline d => rw [ofMember, names, Member.mentions]

/-- The names whose types the frames wait for, the outermost first. -/
def onStack (k : List Frame) : List String := (k.filterMap Frame.name?).reverse

theorem onStack_register (n : String) (k : List Frame) :
    onStack (.register n :: k) = onStack k ++ [n] := by
  simp only [onStack, Frame.name?, List.filterMap_cons, List.reverse_cons]

theorem onStack_of_none {f : Frame} (hf : f.name? = none) (k : List Frame) :
    onStack (f :: k) = onStack k := by
  rw [onStack, List.filterMap_cons_none hf, onStack]

/-- How many calls for names are under way, with the call at hand: each frame that waits for the type
of a name belongs to one. -/
def nesting (c : Call) (k : List Frame) : Nat :=
  match c with
  | .resolve _ => (onStack k).length + 1
  | .build _ _ => (onStack k).length

/-- The frames follow from each other: a name with a frame of its own came up when the names before
it were on the stack, and what any other frame has still to ask for comes up there as well. -/
inductive Fits (decls : Declarations) : List Frame → Prop
  | nil : Fits decls []
  | register {n : String} {k : List Frame} : ComesUp decls (onStack k) n →
    IsDeclared decls n → n ∉ onStack k → Fits decls k → Fits decls (.register n :: k)
  | other {f : Frame} {k : List Frame} : f.name? = none →
    (∀ n ∈ f.pending, ComesUp decls (onStack k) n) → Fits decls k → Fits decls (f :: k)

theorem Fits.isTrail (h : Fits decls k) : IsTrail decls (onStack k) := by
  induction h with
  | nil => exact Registry.isTrail_nil
  | register hname hd hn _ ih =>
      rw [onStack_register]
      exact ih.append hname hd hn
  | other hf _ _ ih =>
      rw [onStack_of_none hf]
      exact ih

/-- The stack holds the names whose types the frames wait for, and the table does not know them. -/
structure Sits (decls : Declarations) (s : State) (k : List Frame) : Prop where
  stack : s.resolving = onStack k
  fits : Fits decls k
  missing : ∀ n ∈ s.resolving, s.resolved.lookup n = none

namespace Sits

variable {f : Frame}

theorem isTrail (h : Sits decls s k) : IsTrail decls s.resolving :=
  h.stack ▸ h.fits.isTrail

/-- A frame that waits for no name leaves the stack as it is. -/
theorem push (h : Sits decls s k) (hf : f.name? = none)
    (hnames : ∀ n ∈ f.pending, ComesUp decls s.resolving n) : Sits decls s (f :: k) where
  stack := by rw [onStack_of_none hf, h.stack]
  fits := .other hf (h.stack ▸ hnames) h.fits
  missing := h.missing

theorem pop (h : Sits decls s (f :: k)) (hf : f.name? = none) :
    Sits decls s k ∧ ∀ n ∈ f.pending, ComesUp decls s.resolving n := by
  obtain ⟨hstack, hfits, hmissing⟩ := h
  rw [onStack_of_none hf] at hstack
  cases hfits with
  | register => cases hf
  | other _ hnames hk => exact ⟨⟨hstack, hk, hmissing⟩, hstack ▸ hnames⟩

/-- A declared name that comes up, and that neither the table nor the stack holds, is put on the
stack. -/
theorem down (h : Sits decls s k) (hname : ComesUp decls s.resolving n)
    (hd : IsDeclared decls n) (hn : n ∉ s.resolving) (hk : s.resolved.lookup n = none) :
    Sits decls ⟨s.resolved, s.resolving ++ [n]⟩ (.register n :: k) where
  stack := by rw [onStack_register, h.stack]
  fits := .register (h.stack ▸ hname) hd (h.stack ▸ hn) h.fits
  missing := List.forall_mem_append.2 ⟨h.missing, List.forall_mem_singleton.2 hk⟩

/-- A name is taken off the stack when its type is put into the table. -/
theorem up (h : Sits decls s (.register n :: k)) (t : Ty) :
    s.resolved.lookup n = none ∧ Sits decls ⟨(n, t) :: s.resolved, s.resolving.dropLast⟩ k := by
  obtain ⟨hstack, hfits, hmissing⟩ := h
  rw [onStack_register] at hstack
  rw [hstack] at hmissing ⊢
  rw [List.dropLast_concat]
  obtain ⟨hmissing, hn⟩ := List.forall_mem_append.1 hmissing
  cases hfits with
  | register _ _ hn' hk =>
      refine ⟨hn n List.mem_cons_self, rfl, hk, fun m hm ↦ ?_⟩
      rw [Registry.lookup_cons_of_ne (ne_of_mem_of_not_mem hm hn')]
      exact hmissing m hm
  | other hf => cases hf

end Sits

/-- The table at hand. -/
def Config.table : Config → Known
  | .call _ s _ | .back _ s _ | .failed _ s _ => s.resolved
  | .done known => known

/-- What holds wherever the machine stands, up to a failure, which leaves names on the stack. -/
def Config.IsSound (decls : Declarations) : Config → Prop
  | .call c s k => Sits decls s k ∧ ∀ n ∈ c.names, ComesUp decls s.resolving n
  | .back _ s k => Sits decls s k
  | .failed _ _ _ | .done _ => True

/-- The machine is at a sound place, and the table has all that is known. -/
structure Keeps (decls : Declarations) (known : Known) (c : Config) : Prop where
  sound : c.IsSound decls
  all : Extends known c.table

section Step

variable (h : Sits decls s k)

include h

/-- A member is asked for, by a frame that waits for no name. -/
theorem ofMember_keeps {f : Frame} {m : Member} (hf : f.name? = none)
    (hm : ∀ n ∈ m.mentions, ComesUp decls s.resolving n)
    (hnames : ∀ n ∈ f.pending, ComesUp decls s.resolving n) :
    Keeps decls s.resolved (.call (.ofMember m) s (f :: k)) where
  sound := ⟨h.push hf hnames, (Call.names_ofMember m).symm ▸ hm⟩
  all := Extends.refl _

theorem membersStep_keeps {ms : List Member} (make : List Ty → Ty) (before : List Ty)
    (hms : ∀ n ∈ Member.mentionsAll ms, ComesUp decls s.resolving n) :
    Keeps decls s.resolved (membersStep make before ms s k) := by
  cases ms with
  | nil => exact ⟨h, Extends.refl _⟩
  | cons m ms =>
      obtain ⟨hm, hms⟩ := List.forall_mem_append.1 hms
      exact ofMember_keeps h rfl hm hms

theorem fieldsStep_keeps {fs : List (String × Member)} (type : Option String)
    (before : List (String × Ty))
    (hfs : ∀ n ∈ Member.mentionsFields fs, ComesUp decls s.resolving n) :
    Keeps decls s.resolved (fieldsStep type before fs s k) := by
  cases fs with
  | nil => exact ⟨h, Extends.refl _⟩
  | cons f fs =>
      obtain ⟨field, m⟩ := f
      obtain ⟨hm, hfs⟩ := List.forall_mem_append.1 hfs
      exact ofMember_keeps h rfl hm hfs

theorem namesStep_keeps {names : List String}
    (hnames : ∀ n ∈ names, ComesUp decls s.resolving n) :
    Keeps decls s.resolved (namesStep names s k) := by
  cases names with
  | nil => exact ⟨trivial, Extends.refl _⟩
  | cons n ns =>
      obtain ⟨hn, hns⟩ := List.forall_mem_cons.1 hnames
      exact ⟨⟨h.push rfl hns, List.forall_mem_singleton.2 hn⟩, Extends.refl _⟩

theorem resolveStep_keeps (hn : ComesUp decls s.resolving n) :
    Keeps decls s.resolved (resolveStep decls n s k) := by
  rw [resolveStep]
  split
  · exact ⟨h, Extends.refl _⟩
  · rename_i hk
    split
    · exact ⟨trivial, Extends.refl _⟩
    · rename_i hp
      split
      · exact ⟨trivial, Extends.refl _⟩
      · rename_i d hd
        have hp : n ∉ s.resolving := by simpa using hp
        have hdecl : IsDeclared decls n := List.mem_map_of_mem (Registry.mem_of_lookup hd)
        refine ⟨⟨h.down hn hdecl hp hk, fun m hm ↦ ?_⟩, Extends.refl _⟩
        exact (Registry.comesUp_append n).2 ⟨d, hd, hm⟩

theorem buildStep_keeps (type : Option String) {d : Definition}
    (hd : ∀ n ∈ d.mentions, ComesUp decls s.resolving n) :
    Keeps decls s.resolved (buildStep type s k d) := by
  cases d with
  | simple super =>
      cases super with
      | none => exact ⟨h, Extends.refl _⟩
      | some n => exact ⟨⟨h.push rfl (List.forall_mem_nil _), hd⟩, Extends.refl _⟩
  | list m => exact ofMember_keeps h rfl hd (List.forall_mem_nil _)
  | tuple ms => exact membersStep_keeps h _ _ hd
  | union ms => exact membersStep_keeps h _ _ hd
  | fields fs => exact fieldsStep_keeps h _ _ hd
  | keyed m v =>
      obtain ⟨hm, hv⟩ := List.forall_mem_append.1 hd
      exact ofMember_keeps h rfl hm hv

end Step

theorem backStep_keeps {f : Frame} (h : Sits decls s (f :: k)) :
    Keeps decls s.resolved (backStep t s k f) := by
  cases f with
  | register n =>
      obtain ⟨hn, h⟩ := h.up t
      exact ⟨h, Registry.extends_cons hn⟩
  | super type n =>
      obtain ⟨h, -⟩ := h.pop rfl
      rw [backStep]
      split
      · exact ⟨h, Extends.refl _⟩
      · exact ⟨trivial, Extends.refl _⟩
  | list type => exact ⟨(h.pop rfl).1, Extends.refl _⟩
  | members make before rest =>
      obtain ⟨h, hrest⟩ := h.pop rfl
      exact membersStep_keeps h _ _ hrest
  | fields type before field rest =>
      obtain ⟨h, hrest⟩ := h.pop rfl
      exact fieldsStep_keeps h _ _ hrest
  | key type v =>
      obtain ⟨h, hv⟩ := h.pop rfl
      rw [backStep]
      split
      · exact ofMember_keeps h rfl hv (List.forall_mem_nil _)
      · exact ⟨trivial, Extends.refl _⟩
  | value type key => exact ⟨(h.pop rfl).1, Extends.refl _⟩
  | next names =>
      obtain ⟨h, hnames⟩ := h.pop rfl
      exact namesStep_keeps h hnames

/-- A step from a sound place goes to one. -/
theorem step_keeps (hstep : step decls c = some c') (h : c.IsSound decls) :
    Keeps decls c.table c' := by
  cases c with
  | call c s k =>
      obtain ⟨h, hnames⟩ := h
      cases c with
      | resolve n =>
          obtain rfl := Option.some.inj hstep
          exact resolveStep_keeps h (hnames n List.mem_cons_self)
      | build type d =>
          obtain rfl := Option.some.inj hstep
          exact buildStep_keeps h type hnames
  | back t s k =>
      cases k with
      | nil => cases hstep
      | cons f k =>
          obtain rfl := Option.some.inj hstep
          exact backStep_keeps h
  | failed e s k =>
      cases k with
      | nil => cases hstep
      | cons f k =>
          obtain rfl := Option.some.inj hstep
          exact ⟨trivial, Extends.refl _⟩
  | done known => cases hstep

theorem steps_keeps (hsteps : Steps decls c c') (h : c.IsSound decls) : Keeps decls c.table c' := by
  induction hsteps with
  | refl => exact ⟨h, Extends.refl _⟩
  | tail _ hstep ih =>
      obtain ⟨hsound, hall⟩ := step_keeps hstep ih.sound
      exact ⟨hsound, ih.all.trans hall⟩

theorem start_isSound (decls : Declarations) : (start decls).IsSound decls := by
  have h : Sits decls ⟨Registry.builtinTypes, []⟩ [] := ⟨rfl, .nil, List.forall_mem_nil _⟩
  exact (namesStep_keeps h fun _ hn ↦ hn).sound

/-! ## At a call -/

/-- A trail is no longer than the declarations. -/
theorem length_le_of_isTrail (h : IsTrail decls path) : path.length ≤ decls.length := by
  have hle := (List.subperm_of_subset h.nodup h.declared).length_le
  rwa [List.length_map] at hle

theorem nesting_le {c : Call} (h : Sits decls s k) : nesting c k ≤ decls.length + 1 := by
  have hle := length_le_of_isTrail h.fits.isTrail
  cases c with
  | resolve n => exact Nat.succ_le_succ hle
  | build type d => exact Nat.le_succ_of_le hle

/-- What holds at a call. -/
structure IsOrderly (decls : Declarations) (c : Call) (s : State) (k : List Frame) : Prop where
  /-- The names on the stack are declared, none of them comes twice, and the definition of each
  mentions the next one. -/
  trail : IsTrail decls s.resolving
  /-- The table knows none of them. -/
  missing : ∀ n ∈ s.resolving, s.resolved.lookup n = none
  /-- No more calls for names are under way than there are declarations, and one. -/
  nesting_le : nesting c k ≤ decls.length + 1
  /-- The call returns, with a type or with an error, as resolution does. -/
  returns : Leads decls (.call c s k) s.resolving k (c.run decls s.resolving s.resolved)
  /-- Whenever a type comes back, the stack is what it was before, and the table has all that it
  had. -/
  restores : ∀ t s', Steps decls (.call c s k) (.back t s' k) →
    s'.resolving = s.resolving ∧ Extends s.resolved s'.resolved

/-- Resolution stops whatever is declared, and until then every call is orderly. -/
theorem calls_orderly (decls : Declarations) :
    Stops decls (start decls)
      (Registry.resolveAll decls Registry.builtinTypes (decls.map Prod.fst)) ∧
    ∀ c s k, Steps decls (start decls) (.call c s k) → IsOrderly decls c s k := by
  refine ⟨namesStep_stops _ _, fun c s k hreach ↦ ?_⟩
  have hsound := (steps_keeps hreach (start_isSound decls)).sound
  have h : Sits decls s k := hsound.1
  constructor
  case trail => exact h.isTrail
  case missing => exact h.missing
  case nesting_le => exact nesting_le h
  case returns => exact c.returns s.resolved k
  case restores =>
    intro t s' hback
    obtain ⟨h' : Sits decls s' k, hall⟩ := steps_keeps hback hsound
    exact ⟨h'.stack.trans h.stack.symm, hall⟩

/-- What waits where the cycle of tangled declarations closes. -/
def tangledFrames : List Frame := [
  .list (some "Rack"), .register "Rack",
  .fields (some "Plate") [] "rack" [], .register "Plate",
  .list none, .members (.tuple (some "Sample")) [.ofBuiltin .string] [], .register "Sample",
  .list (some "Batch"), .register "Batch",
  .next ["Sample", "Plate", "Rack"]]

/-- The theorem where a cycle closes that has a definition in place on it: all the names are on the
stack, so that no call could be nested deeper. -/
theorem tangled_orderly :
    nesting (.resolve "Sample") tangledFrames = Registry.tangledDecls.length + 1 ∧
    Steps Registry.tangledDecls (start Registry.tangledDecls) (.call (.resolve "Sample")
      ⟨Registry.builtinTypes, ["Batch", "Sample", "Plate", "Rack"]⟩ tangledFrames) ∧
    IsOrderly Registry.tangledDecls (.resolve "Sample")
      ⟨Registry.builtinTypes, ["Batch", "Sample", "Plate", "Rack"]⟩ tangledFrames := by
  have hbatch : Steps Registry.tangledDecls (start Registry.tangledDecls) (.call (.resolve "Sample")
      ⟨Registry.builtinTypes, ["Batch"]⟩ (tangledFrames.drop 7)) :=
    .head rfl (.head rfl .refl)
  have hsample : Steps Registry.tangledDecls (start Registry.tangledDecls) (.call (.resolve "Plate")
      ⟨Registry.builtinTypes, ["Batch", "Sample"]⟩ (tangledFrames.drop 4)) :=
    hbatch.trans (.head rfl (.head rfl (.head rfl (.head rfl (.head rfl .refl)))))
  have hplate : Steps Registry.tangledDecls (start Registry.tangledDecls) (.call (.resolve "Sample")
      ⟨Registry.builtinTypes, ["Batch", "Sample", "Plate", "Rack"]⟩ tangledFrames) :=
    hsample.trans (.head rfl (.head rfl (.head rfl (.head rfl .refl))))
  exact ⟨rfl, hplate, (calls_orderly Registry.tangledDecls).2 _ _ _ hplate⟩

end Resolver

end LabPlan
