import Mathlib

/-!
# UTF-8

The bytes of a string of characters. The first byte of a character is not
a continuation byte and all others are (`encodeChar_cases`), so that a
string can be cut between any two characters and nowhere else
(`suffix_encode`), and the characters can be read off the bytes
(`encode_cons_inj`).
-/

namespace MiniDuck
namespace Utf8

def encode (s : List Char) : List UInt8 := s.flatMap String.utf8EncodeChar

/-- A byte of the form `10xxxxxx`. -/
def IsContinuation (b : UInt8) : Prop := 128 ≤ b.toNat ∧ b.toNat < 192

def IsAscii (c : Char) : Prop := c.toNat < 128

instance (c : Char) : Decidable (IsAscii c) := inferInstanceAs (Decidable (c.toNat < 128))

theorem encode_nil : encode [] = [] := rfl

theorem encode_cons (c : Char) (s : List Char) :
    encode (c :: s) = String.utf8EncodeChar c ++ encode s := List.flatMap_cons

theorem encode_append (s s' : List Char) : encode (s ++ s') = encode s ++ encode s' :=
  List.flatMap_append

theorem toNat_lt (c : Char) : c.toNat < 1114112 := by
  rcases c.valid with h | ⟨-, h⟩
  · exact lt_trans h (by decide)
  · exact h

theorem encodeChar_ascii {c : Char} (h : IsAscii c) :
    String.utf8EncodeChar c = [UInt8.ofNat c.toNat] := by
  have hle : c.val.toNat ≤ 127 := Nat.le_of_lt_succ h
  simp only [String.utf8EncodeChar, hle, if_true]
  rfl

theorem ofNat_toNat {n : Nat} (h : n < 256) : (UInt8.ofNat n).toNat = n := by
  rw [UInt8.toNat_ofNat']
  exact Nat.mod_eq_of_lt h

/-- The first byte of a character with more than one is a lead byte, the others continue it. -/
theorem encodeChar_cases (c : Char) :
    (IsAscii c ∧ String.utf8EncodeChar c = [UInt8.ofNat c.toNat]) ∨
      (¬ IsAscii c ∧ ∃ lead rest, String.utf8EncodeChar c = lead :: rest ∧ 192 ≤ lead.toNat ∧
        ∀ b ∈ rest, IsContinuation b) := by
  by_cases hascii : IsAscii c
  · exact .inl ⟨hascii, encodeChar_ascii hascii⟩
  · refine .inr ⟨hascii, ?_⟩
    have hgt : ¬ c.val.toNat ≤ 127 := fun hle => hascii (Nat.lt_succ_of_le hle)
    have hlt : c.val.toNat < 1114112 := toNat_lt c
    have hcont (n : Nat) : IsContinuation (UInt8.ofNat (n % 64 + 128)) := by
      rw [IsContinuation, ofNat_toNat (by omega)]
      omega
    simp only [String.utf8EncodeChar, hgt, if_false]
    split
    · refine ⟨_, _, rfl, ?_, ?_⟩
      · rw [ofNat_toNat (by omega)]
        omega
      · simp only [List.forall_mem_singleton]
        exact hcont _
    · split
      · refine ⟨_, _, rfl, ?_, ?_⟩
        · rw [ofNat_toNat (by omega)]
          omega
        · simp only [List.forall_mem_cons]
          exact ⟨hcont _, hcont _, List.forall_mem_nil _⟩
      · refine ⟨_, _, rfl, ?_, ?_⟩
        · rw [ofNat_toNat (by omega)]
          omega
        · simp only [List.forall_mem_cons]
          exact ⟨hcont _, hcont _, hcont _, List.forall_mem_nil _⟩

theorem encodeChar_cons (c : Char) :
    ∃ lead rest, String.utf8EncodeChar c = lead :: rest ∧ ¬ IsContinuation lead ∧
      ∀ b ∈ rest, IsContinuation b := by
  rcases encodeChar_cases c with ⟨hascii, h⟩ | ⟨-, lead, rest, h, hlead, hrest⟩
  · refine ⟨_, _, h, fun hcont => ?_, List.forall_mem_nil _⟩
    have hlt : c.toNat < 128 := hascii
    rw [IsContinuation, ofNat_toNat (by omega)] at hcont
    omega
  · exact ⟨lead, rest, h, fun hcont => hcont.2.not_ge hlead, hrest⟩

theorem encode_cons_inj {c d : Char} {rest rest' : List UInt8}
    (h : String.utf8EncodeChar c ++ rest = String.utf8EncodeChar d ++ rest') :
    c = d ∧ rest = rest' := by
  have hdecode (e : Char) (bytes : List UInt8) :
      (String.utf8EncodeChar e ++ bytes).toByteArray.utf8DecodeChar? 0 = some e := by
    rw [List.toByteArray_append]
    exact ByteArray.utf8DecodeChar?_utf8EncodeChar_append
  obtain rfl : c = d := by
    have heq := hdecode c rest
    rw [h, hdecode] at heq
    exact (Option.some.inj heq).symm
  exact ⟨rfl, List.append_cancel_left h⟩

/-- A part of the bytes up to the end starts at a character, or inside of one. -/
theorem suffix_encode {s : List Char} {rest : List UInt8} (h : rest <:+ encode s) :
    (∃ s', s' <:+ s ∧ rest = encode s') ∨
      ∃ c s' mid, c :: s' <:+ s ∧ rest = mid ++ encode s' ∧ mid ≠ [] ∧
        ∀ b ∈ mid, IsContinuation b := by
  induction s with
  | nil =>
      rw [encode_nil, List.suffix_nil] at h
      exact .inl ⟨[], List.suffix_refl _, h⟩
  | cons c s ih =>
      obtain ⟨lead, cont, hc, -, hcont⟩ := encodeChar_cons c
      have hlater {t : List Char} (ht : t <:+ s) : t <:+ c :: s := ht.trans (List.suffix_cons _ _)
      rcases Nat.le_total rest.length (encode s).length with hle | hle
      · have hs : rest <:+ encode s :=
          List.suffix_of_suffix_length_le h (encode_cons c s ▸ List.suffix_append _ _) hle
        rcases ih hs with ⟨s', hs', heq⟩ | ⟨d, s', mid, hs', hmid⟩
        · exact .inl ⟨s', hlater hs', heq⟩
        · exact .inr ⟨d, s', mid, hlater hs', hmid⟩
      · obtain ⟨mid, rfl⟩ : encode s <:+ rest :=
          List.suffix_of_suffix_length_le (encode_cons c s ▸ List.suffix_append _ _) h hle
        rw [encode_cons, List.suffix_append_self_iff, hc, List.suffix_cons_iff] at h
        rcases h with rfl | hmid
        · exact .inl ⟨c :: s, List.suffix_refl _, by rw [encode_cons, hc]⟩
        · rcases eq_or_ne mid [] with rfl | hne
          · exact .inl ⟨s, List.suffix_cons _ _, rfl⟩
          · exact .inr ⟨c, s, mid, List.suffix_refl _, rfl, hne,
              fun b hb => hcont b (hmid.subset hb)⟩

theorem encode_suffix {s s' : List Char} (h : s' <:+ s) : encode s' <:+ encode s := by
  obtain ⟨part, rfl⟩ := h
  rw [encode_append]
  exact List.suffix_append _ _

end Utf8
end MiniDuck
