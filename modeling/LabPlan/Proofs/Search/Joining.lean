import LabPlan.Search.Grammar
import Mathlib.Data.List.Chain

/-! # Tokens and their pieces

Pieces are grouped into tokens in one way only if literal text is joined as far as possible: nothing
is lost by it, no literal is empty, and no two stand side by side. -/

namespace LabPlan.Search

namespace Token

/-! ## From pieces to tokens -/

theorem pieces_addChar (c : Char) (ts : List Token) :
    (addChar c ts).flatMap pieces = .char c :: ts.flatMap pieces := by
  cases ts with
  | nil => simp [addChar, pieces]
  | cons t ts => cases t <;> simp [addChar, pieces]

/-- Grouping pieces loses nothing. -/
theorem pieces_ofPieces (ps : List Piece) : (ofPieces ps).flatMap pieces = ps := by
  induction ps with
  | nil => rfl
  | cons p ps ih => cases p <;> simp [ofPieces, pieces_addChar, pieces, ih]

theorem areJoined_addChar (c : Char) {ts : List Token} (h : AreJoined ts) :
    AreJoined (addChar c ts) := by
  cases h with
  | nil => exact .literal (by simp) (by simp) .nil
  | @wildcard t ts ht h =>
      cases t with
      | literal s => exact absurd rfl (ht s)
      | anyChars => exact .literal (by simp) (by simp) (.wildcard ht h)
      | oneChar => exact .literal (by simp) (by simp) (.wildcard ht h)
  | literal hs hn h => exact .literal (by simp) hn h

/-- Pieces are joined as far as possible. -/
theorem areJoined_ofPieces (ps : List Piece) : AreJoined (ofPieces ps) := by
  induction ps with
  | nil => exact .nil
  | cons p ps ih =>
      cases p with
      | char c => exact areJoined_addChar c ih
      | anyChars => exact .wildcard (by simp) ih
      | oneChar => exact .wildcard (by simp) ih

/-! ## From tokens to pieces -/

/-- Characters before tokens that do not begin with a literal make a literal of their own. -/
theorem ofPieces_map_char_append {cs : List Char} (hne : cs ≠ []) {ps : List Piece}
    (hn : ∀ s, (ofPieces ps).head? ≠ some (literal s)) :
    ofPieces (cs.map .char ++ ps) = literal (String.ofList cs) :: ofPieces ps := by
  induction cs with
  | nil => exact absurd rfl hne
  | cons c cs ih =>
      rw [List.map_cons, List.cons_append, ofPieces]
      cases cs with
      | nil =>
          rw [List.map_nil, List.nil_append]
          cases hts : ofPieces ps with
          | nil => rfl
          | cons t ts =>
              rw [hts] at hn
              cases t with
              | literal s => exact absurd rfl (hn s)
              | anyChars => rfl
              | oneChar => rfl
      | cons d cs =>
          rw [ih (List.cons_ne_nil d cs), addChar, String.toList_ofList]

/-- Joined tokens are made from their pieces again. -/
theorem ofPieces_flatMap_pieces {ts : List Token} (h : AreJoined ts) :
    ofPieces (ts.flatMap pieces) = ts := by
  induction h with
  | nil => rfl
  | @wildcard t ts ht _ ih =>
      cases t with
      | literal s => exact absurd rfl (ht s)
      | anyChars => exact congrArg (anyChars :: ·) ih
      | oneChar => exact congrArg (oneChar :: ·) ih
  | @literal s ts hs hn _ ih =>
      have hcs : s.toList ≠ [] := fun he ↦ hs (String.toList_eq_nil_iff.1 he)
      rw [List.flatMap_cons, pieces, ofPieces_map_char_append hcs (by rwa [ih]), ih,
        String.ofList_toList]

/-- The token is literal text. -/
def isLiteral : Token → Bool
  | literal _ => true
  | _ => false

/-- Joined tokens, seen two at a time. -/
theorem areJoined_iff {ts : List Token} : AreJoined ts ↔
    literal "" ∉ ts ∧ ts.IsChain fun t u ↦ ¬ (t.isLiteral = true ∧ u.isLiteral = true) := by
  induction ts with
  | nil => exact iff_of_true .nil ⟨List.not_mem_nil, .nil⟩
  | cons t ts ih =>
      rw [List.isChain_cons, List.mem_cons, not_or]
      constructor
      · intro h
        cases h with
        | @wildcard _ _ ht h =>
            obtain ⟨hs, hc⟩ := ih.1 h
            refine ⟨⟨(ht "").symm, hs⟩, fun u _ hu ↦ ?_, hc⟩
            cases t with
            | literal s => exact ht s rfl
            | _ => cases hu.1
        | @literal s _ hne hn h =>
            obtain ⟨hs, hc⟩ := ih.1 h
            refine ⟨⟨fun he ↦ hne (literal.inj he).symm, hs⟩, fun u hu hl ↦ ?_, hc⟩
            cases u with
            | literal s' => exact hn s' hu
            | _ => cases hl.2
      · rintro ⟨⟨hne, hs⟩, hn, hc⟩
        have h := ih.2 ⟨hs, hc⟩
        cases t with
        | literal s =>
            refine .literal (fun he ↦ hne (congrArg literal he.symm)) (fun s' hs' ↦ ?_) h
            exact hn (literal s') hs' ⟨rfl, rfl⟩
        | anyChars => exact .wildcard (fun _ ↦ Token.noConfusion) h
        | oneChar => exact .wildcard (fun _ ↦ Token.noConfusion) h

/-- Grouping pieces is the one way to join them. -/
theorem joins_iff {ts : List Token} {ps : List Piece} : Joins ts ps ↔ ofPieces ps = ts := by
  constructor
  · rintro ⟨rfl, hj⟩
    exact ofPieces_flatMap_pieces hj
  · rintro rfl
    exact ⟨pieces_ofPieces ps, areJoined_ofPieces ps⟩

end Token

end LabPlan.Search
