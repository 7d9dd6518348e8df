import LabPlan.Problem

/-! # Results with problems

A part of a document is read together with the problems found in it, in the order in which they
are found.  Reading goes on after a problem, so that all of them are reported. -/

namespace LabPlan

/-- A result and the problems found on the way to it. -/
structure Checked (α : Type) where
  problems : List Problem
  result : α
deriving Repr

namespace Checked

variable {α β : Type}

/-- A result without problems. -/
protected def pure (a : α) : Checked α := ⟨[], a⟩

/-- Go on with a result; problems found later come after those found before. -/
protected def bind (c : Checked α) (f : α → Checked β) : Checked β :=
  ⟨c.problems ++ (f c.result).problems, (f c.result).result⟩

instance : Monad Checked where
  pure := Checked.pure
  bind := Checked.bind

/-- Note one problem. -/
def note (p : Problem) : Checked Unit := ⟨[p], ()⟩

/-- Note one problem in place of a result. -/
def reject (p : Problem) : Checked (Option α) := ⟨[p], none⟩

/-- Note several problems. -/
def notes (ps : List Problem) : Checked Unit := ⟨ps, ()⟩

@[simp] theorem problems_pure (a : α) : (pure a : Checked α).problems = [] := rfl
@[simp] theorem result_pure (a : α) : (pure a : Checked α).result = a := rfl

@[simp] theorem problems_bind (c : Checked α) (f : α → Checked β) :
    (c >>= f).problems = c.problems ++ (f c.result).problems := rfl

@[simp] theorem result_bind (c : Checked α) (f : α → Checked β) :
    (c >>= f).result = (f c.result).result := rfl

@[simp] theorem problems_note (p : Problem) : (note p).problems = [p] := rfl
@[simp] theorem problems_notes (ps : List Problem) : (notes ps).problems = ps := rfl

@[simp] theorem problems_reject (p : Problem) :
    (reject p : Checked (Option α)).problems = [p] := rfl

/-- Check items one after the other, keeping what each gives. -/
def forEach (f : α → Checked β) : List α → Checked (List β)
  | [] => pure []
  | a :: as => do
    let b ← f a
    let bs ← forEach f as
    return b :: bs

@[simp] theorem problems_forEach (f : α → Checked β) (as : List α) :
    (forEach f as).problems = as.flatMap fun a ↦ (f a).problems := by
  induction as with
  | nil => rfl
  | cons a as ih => simp [forEach, ih]

@[simp] theorem result_forEach (f : α → Checked β) (as : List α) :
    (forEach f as).result = as.map fun a ↦ (f a).result := by
  induction as with
  | nil => rfl
  | cons a as ih => simp [forEach, ih]

/-- The result, if no problem was found. -/
def toExcept (c : Checked α) : Except (List Problem) α :=
  if c.problems.isEmpty then .ok c.result else .error c.problems

end Checked

end LabPlan
