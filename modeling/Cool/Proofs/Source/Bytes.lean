import Cool.Source.Span
import Mathlib.Data.List.Basic

/-!
# The bytes of a text

Places are counted in bytes, so that a text can also be gone over byte by byte. The bytes of ASCII
stand for themselves wherever they are found: no other character has one of them in its encoding.

* `Text.encode` : the bytes of a text, as many as `Text.bytes` counts;
* `Text.eq_of_mem_encodeChar`, `Text.head?_of_head?_encode` : which characters have a byte of ASCII.
-/

namespace Cool

/-- The bytes of a text in UTF-8. -/
def Text.encode (s : List Char) : List UInt8 :=
  s.flatMap String.utf8EncodeChar

@[simp] theorem Text.length_encode (s : List Char) : (Text.encode s).length = Text.bytes s := by
  induction s with
  | nil => rfl
  | cons c s ih =>
    rw [Text.encode, List.flatMap_cons, List.length_append, String.length_utf8EncodeChar]
    exact congrArg (c.utf8Size + ·) ih

/-- A sign of two characters of ASCII in front of a text takes two bytes. -/
theorem Text.bytes_sign {c d : Char} (h : Text.bytes [c, d] = 2) (s : List Char) :
    Text.bytes (c :: d :: s) = 2 + Text.bytes s := by
  rw [← h]
  exact Text.bytes_append [c, d] s

/-- A byte of ASCII is in the encoding of its own character and in no other: where the encoding has
several bytes, each of them is at least 128. -/
theorem Text.eq_of_mem_encodeChar {c d : Char} {b : UInt8} (hd : d.toNat < 128)
    (hb : b.toNat = d.toNat) (h : b ∈ String.utf8EncodeChar c) : c = d := by
  apply Char.toNat_inj.mp
  rw [← hb] at hd ⊢
  unfold String.utf8EncodeChar at h
  dsimp only at h
  split at h
  · rw [List.mem_singleton] at h
    rw [h, UInt8.toNat_ofNat_of_lt' (by simp only [UInt8.size]; omega)]
    rfl
  · have hlarge : 128 ≤ b.toNat := by
      split at h
      · simp only [List.mem_cons, List.not_mem_nil, or_false] at h
        rcases h with rfl | rfl <;> rw [UInt8.toNat_ofNat'] <;> omega
      · split at h <;> simp only [List.mem_cons, List.not_mem_nil, or_false] at h
        · rcases h with rfl | rfl | rfl <;> rw [UInt8.toNat_ofNat'] <;> omega
        · rcases h with rfl | rfl | rfl | rfl <;> rw [UInt8.toNat_ofNat'] <;> omega
    omega

/-- The first byte of a text is one of ASCII only if the first character is. -/
theorem Text.head?_of_head?_encode {s : List Char} {d : Char} {b : UInt8} (hd : d.toNat < 128)
    (hb : b.toNat = d.toNat) (h : (Text.encode s).head? = some b) : s.head? = some d := by
  rcases s with - | ⟨c, s⟩
  · cases h
  · rw [Text.encode, List.flatMap_cons, List.head?_append_of_ne_nil _ String.utf8EncodeChar_ne_nil]
      at h
    rw [List.head?_cons, Text.eq_of_mem_encodeChar hd hb (List.mem_of_mem_head? h)]

end Cool
