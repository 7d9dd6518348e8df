/-! # The bytes of a text

Texts are ordered by their characters.  The encoding keeps this order: where two texts first
differ, the bytes of the smaller character come first, whatever follows. -/

namespace LabPlan.Text

/-- The bytes of a text. -/
def bytes (s : String) : List UInt8 := s.toUTF8.data.toList

/-- The bytes of a text are those of its characters in order. -/
theorem bytes_eq_flatMap (s : String) : bytes s = s.toList.flatMap String.utf8EncodeChar := by
  have h : (String.ofList s.toList).toByteArray = s.toList.utf8Encode := String.toByteArray_ofList
  rw [String.ofList_toList] at h
  rw [bytes, String.toUTF8_eq_toByteArray, h, List.utf8Encode]
  simp

theorem toNat_ofNat_digit (n : Nat) {m b : Nat} (hm : 0 < m) (h : m + b ≤ 256) :
    (UInt8.ofNat (n % m + b)).toNat = n % m + b := by
  have := Nat.mod_lt n hm
  rw [UInt8.toNat_ofNat']
  omega

/-- Numbers of four digits are compared digit by digit. -/
theorem digits_lt {x y : Nat} (hy : y < 2097152) (h : x < y) (p : Prop) :
    x / 262144 % 8 < y / 262144 % 8 ∨ x / 262144 % 8 = y / 262144 % 8 ∧
      (x / 4096 % 64 < y / 4096 % 64 ∨ x / 4096 % 64 = y / 4096 % 64 ∧
        (x / 64 % 64 < y / 64 % 64 ∨ x / 64 % 64 = y / 64 % 64 ∧
          (x % 64 < y % 64 ∨ x % 64 = y % 64 ∧ p))) := by
  have hdigits (n : Nat) (hn : n < 2097152) : ∃ a b c d, n / 262144 % 8 = a ∧
      n / 4096 % 64 = b ∧ n / 64 % 64 = c ∧ n % 64 = d ∧ b < 64 ∧ c < 64 ∧ d < 64 ∧
      n = 262144 * a + 4096 * b + 64 * c + d := by
    refine ⟨_, _, _, _, rfl, rfl, rfl, rfl, Nat.mod_lt _ (by decide), Nat.mod_lt _ (by decide),
      Nat.mod_lt _ (by decide), ?_⟩
    omega
  obtain ⟨a, b, c, d, ha, hb, hc, hd, hb', hc', hd', hx⟩ := hdigits x (Nat.lt_trans h hy)
  obtain ⟨e, f, i, j, he, hf, hi, hj, hf', hi', hj', hy⟩ := hdigits y hy
  rw [ha, hb, hc, hd, he, hf, hi, hj]
  clear ha hb hc hd he hf hi hj
  omega

/-- Of two characters the smaller one has the smaller encoding, whatever follows. -/
theorem encode_append_lt {c d : Char} (h : c < d) (cs ds : List UInt8) :
    String.utf8EncodeChar c ++ cs < String.utf8EncodeChar d ++ ds := by
  have hcd : c.val.toNat < d.val.toNat := h
  have hd : d.val.toNat < 2097152 := by
    rcases d.valid with h | h <;> omega
  generalize hx : c.val.toNat = x at hcd
  generalize hy : d.val.toNat = y at hcd hd
  simp only [String.utf8EncodeChar, hx, hy]
  -- One case for every length of the two encodings.
  repeat' split
  all_goals
    simp only [List.cons_append, List.nil_append, List.cons_lt_cons_iff, UInt8.lt_iff_toNat_lt,
      ← UInt8.toNat_inj, toNat_ofNat_digit _ (by decide : 0 < 64) (by decide : 64 + 128 ≤ 256),
      toNat_ofNat_digit _ (by decide : 0 < 32) (by decide : 32 + 192 ≤ 256),
      toNat_ofNat_digit _ (by decide : 0 < 16) (by decide : 16 + 224 ≤ 256),
      toNat_ofNat_digit _ (by decide : 0 < 8) (by decide : 8 + 240 ≤ 256), UInt8.toNat_ofNat',
      Nat.add_lt_add_iff_right, Nat.add_right_cancel_iff]
  any_goals omega
  exact digits_lt hd hcd _

/-- The encoding of a sequence of characters keeps their order. -/
theorem flatMap_encode_lt {cs ds : List Char} (h : cs < ds) :
    cs.flatMap String.utf8EncodeChar < ds.flatMap String.utf8EncodeChar := by
  induction cs generalizing ds with
  | nil =>
      cases ds with
      | nil => exact absurd h (List.not_lt_nil _)
      | cons d ds =>
          have hne : String.utf8EncodeChar d ≠ [] := String.utf8EncodeChar_ne_nil
          obtain ⟨b, bs, hb⟩ := List.exists_cons_of_ne_nil hne
          rw [List.flatMap_nil, List.flatMap_cons, hb, List.cons_append]
          exact List.nil_lt_cons _ _
  | cons c cs ih =>
      cases ds with
      | nil => exact absurd h (List.not_lt_nil _)
      | cons d ds =>
          rw [List.flatMap_cons, List.flatMap_cons]
          rcases List.cons_lt_cons_iff.1 h with hcd | ⟨rfl, hs⟩
          · exact encode_append_lt hcd _ _
          · exact List.append_left_lt (ih hs)

/-- Texts are ordered as their bytes are. -/
theorem bytes_lt_iff {s t : String} : bytes s < bytes t ↔ s < t := by
  have hlt {s t : String} (h : s < t) : bytes s < bytes t := by
    rw [bytes_eq_flatMap, bytes_eq_flatMap]
    exact flatMap_encode_lt (String.lt_iff.1 h)
  refine ⟨fun h ↦ ?_, hlt⟩
  by_cases hst : s < t
  · exact hst
  · by_cases hts : t < s
    · exact absurd h (List.lt_asymm (hlt hts))
    · rw [String.le_antisymm (String.not_lt.1 hts) (String.not_lt.1 hst)] at h
      exact absurd h (List.lt_irrefl _)

end LabPlan.Text
