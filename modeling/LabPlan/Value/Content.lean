import LabPlan.Value.Basic

/-! # The content of a value

A value is content with tags around it.  A mapping's keys belong to its shape, so tags are taken
off, and texts are collected, in every place but the keys. -/

namespace LabPlan.Value

mutual

/-- The value without the tags outside its keys. -/
def content : Value → Value
  | sequence vs => sequence (contents vs)
  | mapping es => mapping (entryContents es)
  | tagged _ v => content v
  | v => v
termination_by structural v => v

def contents : List Value → List Value
  | [] => []
  | v :: vs => content v :: contents vs
termination_by structural vs => vs

def entryContents : Entries → Entries
  | [] => []
  | e :: es => entryContent e :: entryContents es
termination_by structural es => es

def entryContent : Value × Value → Value × Value
  | (k, v) => (k, content v)
termination_by structural e => e

end

theorem contents_eq (vs : List Value) : contents vs = vs.map content := by
  induction vs with
  | nil => rfl
  | cons v vs ih => rw [contents, ih, List.map_cons]

theorem entryContents_eq (es : Entries) : entryContents es = es.map fun e ↦ (e.1, e.2.content) := by
  induction es with
  | nil => rfl
  | cons e es ih => rw [entryContents, ih, List.map_cons, entryContent]

@[simp] theorem content_sequence (vs : List Value) :
    (sequence vs).content = sequence (vs.map content) := by rw [content, contents_eq]

@[simp] theorem content_mapping (es : Entries) :
    (mapping es).content = mapping (es.map fun e ↦ (e.1, e.2.content)) := by
  rw [content, entryContents_eq]

mutual

/-- The texts outside the keys, from left to right. -/
def texts : Value → List String
  | string s => [s]
  | sequence vs => textsAll vs
  | mapping es => textsEach es
  | tagged _ v => texts v
  | _ => []
termination_by structural v => v

def textsAll : List Value → List String
  | [] => []
  | v :: vs => texts v ++ textsAll vs
termination_by structural vs => vs

def textsEach : Entries → List String
  | [] => []
  | e :: es => textsEntry e ++ textsEach es
termination_by structural es => es

def textsEntry : Value × Value → List String
  | (_, v) => texts v
termination_by structural e => e

end

theorem textsAll_eq (vs : List Value) : textsAll vs = vs.flatMap texts := by
  induction vs with
  | nil => rfl
  | cons v vs ih => rw [textsAll, ih, List.flatMap_cons]

theorem textsEach_eq (es : Entries) : textsEach es = es.flatMap fun e ↦ e.2.texts := by
  induction es with
  | nil => rfl
  | cons e es ih => rw [textsEach, ih, List.flatMap_cons, textsEntry]

@[simp] theorem texts_string (s : String) : (string s).texts = [s] := rfl

@[simp] theorem texts_sequence (vs : List Value) : (sequence vs).texts = vs.flatMap texts := by
  rw [texts, textsAll_eq]

@[simp] theorem texts_mapping (es : Entries) :
    (mapping es).texts = es.flatMap fun e ↦ e.2.texts := by
  rw [texts, textsEach_eq]

end LabPlan.Value
