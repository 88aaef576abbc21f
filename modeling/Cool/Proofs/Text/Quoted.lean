import Cool.Text.Quoted
import Mathlib

/-!
# Quoted text can be read back

* `Text.append_inj_of_head`, `Text.append_cons_inj`, `Text.append_cons_inj_last` : a text that is
  cut at the first or the last occurrence of a character;
* `Quoted.encode_injective` : different texts are different between quotes;
* `Quoted.notMem_encode` : a text between quotes is on one line;
* `IsQuoting`, `isQuoting_encode` : what is asked of a quoting, and that this is one.
-/

namespace Cool

/-! ## Cutting a text -/

namespace Text

variable {a : Char} {s s' t t' : List Char}

/-- What stands in front of the first occurrence of a character. -/
theorem takeWhile_append (hs : a ∉ s) (ht : ∀ c ∈ t.head?, c = a) :
    (s ++ t).takeWhile (· ≠ a) = s := by
  have hinside : ∀ c ∈ s, decide (c ≠ a) = true := by
    intro c hc
    rw [decide_eq_true_eq]
    rintro rfl
    exact hs hc
  have hbehind : t.takeWhile (· ≠ a) = [] := by
    cases t with
    | nil => rfl
    | cons c t => exact List.takeWhile_cons_of_neg (by simp [ht c rfl])
  rw [List.takeWhile_append_of_pos hinside, hbehind, List.append_nil]

/-- A text is cut in one way in front of the first occurrence of a character, or behind its end. -/
theorem append_inj_of_head (hs : a ∉ s) (hs' : a ∉ s') (ht : ∀ c ∈ t.head?, c = a)
    (ht' : ∀ c ∈ t'.head?, c = a) (h : s ++ t = s' ++ t') : s = s' ∧ t = t' := by
  have hword := congrArg (List.takeWhile (· ≠ a)) h
  rw [takeWhile_append hs ht, takeWhile_append hs' ht'] at hword
  subst hword
  exact ⟨rfl, List.append_cancel_left h⟩

/-- A text is cut at the first occurrence of a character in one way. -/
theorem append_cons_inj (hs : a ∉ s) (hs' : a ∉ s') (h : s ++ a :: t = s' ++ a :: t') :
    s = s' ∧ t = t' := by
  have hhead : ∀ t : List Char, ∀ c ∈ (a :: t).head?, c = a := by
    rintro t c ⟨⟩
    rfl
  obtain ⟨hfront, hbehind⟩ := append_inj_of_head hs hs' (hhead t) (hhead t') h
  exact ⟨hfront, (List.cons.inj hbehind).2⟩

/-- A text is cut at the last occurrence of a character in one way. -/
theorem append_cons_inj_last (ht : a ∉ t) (ht' : a ∉ t') (h : s ++ a :: t = s' ++ a :: t') :
    s = s' ∧ t = t' := by
  have hreverse := congrArg List.reverse h
  simp only [List.reverse_append, List.reverse_cons, List.append_assoc, List.singleton_append]
    at hreverse
  have hcut := append_cons_inj (mt List.mem_reverse.mp ht) (mt List.mem_reverse.mp ht') hreverse
  exact ⟨List.reverse_injective hcut.2, List.reverse_injective hcut.1⟩

end Text

/-! ## Hexadecimal numbers -/

namespace Quoted

/-- The number that a hexadecimal digit stands for. -/
def digitValue (c : Char) : Nat :=
  ((List.range 16).find? fun d => d.digitChar = c).getD 0

/-- The number that hexadecimal digits stand for. -/
def hexValue (digits : List Char) : Nat :=
  digits.foldl (fun n c => 16 * n + digitValue c) 0

theorem digitValue_digitChar : ∀ d < 16, digitValue d.digitChar = d := by
  decide

theorem hexValue_toDigits (n : Nat) : hexValue (Nat.toDigits 16 n) = n := by
  induction n using Nat.strongRecOn with
  | ind n ih =>
    by_cases hn : n < 16
    · rw [Nat.toDigits_of_lt_base hn]
      show 16 * 0 + digitValue n.digitChar = n
      rw [digitValue_digitChar n hn]
      omega
    · have hlower := ih (n / 16) (by omega)
      rw [Nat.toDigits_of_base_le (by decide) (Nat.not_lt.mp hn), hexValue, List.foldl_append]
      show 16 * hexValue (Nat.toDigits 16 (n / 16)) + digitValue (n % 16).digitChar = n
      rw [hlower, digitValue_digitChar _ (Nat.mod_lt n (by decide))]
      omega

/-- Nothing but digits and letters is in a hexadecimal number. -/
theorem ne_of_mem_toDigits {a : Char} (ha : ∀ d, Nat.digitChar d ≠ a) (n : Nat) :
    a ∉ Nat.toDigits 16 n := by
  induction n using Nat.strongRecOn with
  | ind n ih =>
    rw [Nat.toDigits_eq_if (by decide)]
    split
    · exact mt List.mem_singleton.mp (ha n).symm
    · rename_i hn
      rw [List.mem_append, List.mem_singleton, not_or]
      exact ⟨ih (n / 16) (by omega), (ha _).symm⟩

/-! ## Reading back -/

/-- The first character of a text that is in quotes, and the rest of it. -/
def decodeChar : List Char → Option (Char × List Char)
  | '\\' :: 'n' :: s => some ('\n', s)
  | '\\' :: 't' :: s => some ('\t', s)
  | '\\' :: 'r' :: s => some ('\r', s)
  | '\\' :: '0' :: s => some ('\x00', s)
  | '\\' :: 'u' :: '\x7b' :: s =>
    some (.ofNat (hexValue (s.takeWhile (· ≠ '\x7d'))), (s.dropWhile (· ≠ '\x7d')).tail)
  | '\\' :: c :: s => some (c, s)
  | c :: s => some (c, s)
  | [] => none

theorem decodeChar_hex (n : Nat) (s : List Char) :
    decodeChar ('\\' :: 'u' :: '\x7b' :: (Nat.toDigits 16 n ++ '\x7d' :: s)) =
      some (.ofNat n, s) := by
  have hdigits : ∀ c ∈ Nat.toDigits 16 n, decide (c ≠ '\x7d') = true := by
    intro c hc
    rw [decide_eq_true_eq]
    rintro rfl
    exact ne_of_mem_toDigits (fun _ => Nat.digitChar_ne _ rfl) n hc
  rw [decodeChar, List.takeWhile_append_of_pos hdigits, List.dropWhile_append_of_pos hdigits,
    List.takeWhile_cons_of_neg (by decide), List.dropWhile_cons_of_neg (by decide),
    List.append_nil, hexValue_toDigits]
  rfl

theorem decodeChar_encodeChar (c : Char) (s : List Char) :
    decodeChar (encodeChar c ++ s) = some (c, s) := by
  unfold encodeChar
  split_ifs with hquote hbackslash hline htab hreturn hnull hunseen
  · rw [hquote]
    rfl
  · rw [hbackslash]
    rfl
  · rw [hline]
    rfl
  · rw [htab]
    rfl
  · rw [hreturn]
    rfl
  · rw [hnull]
    rfl
  · have h := decodeChar_hex c.toNat s
    rw [Char.ofNat_toNat] at h
    simpa using h
  · rw [List.singleton_append, decodeChar]
    all_goals
      intros
      exact absurd ‹c = '\\'› hbackslash

theorem encodeChar_inj {c d : Char} {s t : List Char} (h : encodeChar c ++ s = encodeChar d ++ t) :
    c = d ∧ s = t := by
  have hdecode := congrArg decodeChar h
  rw [decodeChar_encodeChar, decodeChar_encodeChar] at hdecode
  cases hdecode
  exact ⟨rfl, rfl⟩

theorem flatMap_encodeChar_injective :
    Function.Injective fun s : List Char => s.flatMap encodeChar := by
  intro s t h
  induction s generalizing t with
  | nil =>
    cases t with
    | nil => rfl
    | cons d t =>
      have hdecode := congrArg decodeChar h
      simp only [List.flatMap_cons, decodeChar_encodeChar] at hdecode
      cases hdecode
  | cons c s ih =>
    cases t with
    | nil =>
      have hdecode := congrArg decodeChar h
      simp only [List.flatMap_cons, decodeChar_encodeChar] at hdecode
      cases hdecode
    | cons d t =>
      simp only [List.flatMap_cons] at h
      obtain ⟨rfl, hmore⟩ := encodeChar_inj h
      rw [ih hmore]

/-- Different texts are different between quotes. -/
theorem encode_injective : Function.Injective encode := by
  intro s t h
  have hchars := List.append_cancel_right (List.cons.inj (String.ofList_injective h)).2
  exact String.toList_injective (flatMap_encodeChar_injective hchars)

theorem notMem_encodeChar (c : Char) : '\n' ∉ encodeChar c := by
  have hdigits := ne_of_mem_toDigits (a := '\n') (fun _ => Nat.digitChar_ne _ rfl) c.toNat
  unfold encodeChar
  split_ifs with hquote hbackslash hline
  iterate 6 decide
  · simpa using hdigits
  · exact mt List.mem_singleton.mp (Ne.symm hline)

/-- A text between quotes is on one line. -/
theorem notMem_encode (s : String) : '\n' ∉ (encode s).toList := by
  rw [encode, String.toList_ofList]
  simp [notMem_encodeChar]

end Quoted

/-! ## Quotings -/

/-- A text can be told from its quoting, which is on one line. That it stands between quotes is not
asked for. -/
structure IsQuoting (quote : String → String) : Prop where
  injective : Function.Injective quote
  notMem : ∀ s, '\n' ∉ (quote s).toList

theorem isQuoting_encode : IsQuoting Quoted.encode :=
  ⟨Quoted.encode_injective, Quoted.notMem_encode⟩

end Cool
