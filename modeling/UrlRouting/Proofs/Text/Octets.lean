import UrlRouting.Proofs.Text.Ascii
import UrlRouting.Text.Utf8

/-!
Writing text as UTF-8. Reading the octets of a text gives the text back (`decode_octets`).
-/

namespace UrlRouting.Text.Utf8

variable {n : Nat}

/-- The octets of a text in UTF-8. -/
def octets (t : Text) : List UInt8 := t.flatMap String.utf8EncodeChar

/-! ### One character -/

theorem isTail_iff {octet : Nat} : isTail octet = true ↔ 0x80 ≤ octet ∧ octet ≤ 0xBF := by
  rw [isTail, Bool.and_eq_true, decide_eq_true_eq, decide_eq_true_eq]

theorem readChar_one (h : n < 0x80) (rest : List Nat) : readChar n rest = (Char.ofNat n, 1) := by
  have hbounds : tailBounds? n = some (0, 0, 0) := if_pos h
  unfold readChar
  rw [hbounds]
  cases rest <;> rfl

theorem readChar_two (hlow : 0x80 ≤ n) (hhigh : n ≤ 0x7FF) (rest : List Nat) :
    readChar (n / 64 + 192) ((n % 64 + 128) :: rest) = (Char.ofNat n, 2) := by
  have hbounds : tailBounds? (n / 64 + 192) = some (1, 0x80, 0xBF) := by
    rw [tailBounds?, if_neg (by omega), if_neg (by omega), if_pos (by omega)]
  have hsecond : (n % 64 + 128 < 0x80 || 0xBF < n % 64 + 128 : Bool) = false := by
    simp only [Bool.or_eq_false_iff, decide_eq_false_iff_not]
    omega
  have hvalue : (n / 64 + 192 - 0xC0) * 0x40 + (n % 64 + 128 - 0x80) = n := by omega
  unfold readChar
  rw [hbounds]
  change (if (_ || _) = true then _ else _) = _
  rw [hsecond, hvalue]
  rfl

/-- The second octet of three is between the bounds that the first one sets, since no character is a
surrogate. -/
theorem exists_tailBounds?_three (hlow : 0x800 ≤ n) (hhigh : n ≤ 0xFFFF) (hn : n.isValidChar) :
    ∃ low high, tailBounds? (n / 4096 + 224) = some (2, low, high) ∧
      low ≤ n / 64 % 64 + 128 ∧ n / 64 % 64 + 128 ≤ high := by
  rw [Nat.isValidChar] at hn
  rw [tailBounds?, if_neg (by omega), if_neg (by omega), if_neg (by omega)]
  by_cases hfirst : n / 4096 + 224 = 0xE0
  · exact ⟨0xA0, 0xBF, if_pos hfirst, by omega⟩
  rw [if_neg hfirst]
  by_cases hlast : n / 4096 + 224 = 0xED
  · exact ⟨0x80, 0x9F, if_pos hlast, by omega⟩
  rw [if_neg hlast]
  exact ⟨0x80, 0xBF, if_pos (by omega), by omega⟩

theorem readChar_three (hlow : 0x800 ≤ n) (hhigh : n ≤ 0xFFFF) (hn : n.isValidChar)
    (rest : List Nat) : readChar (n / 4096 + 224) ((n / 64 % 64 + 128) :: (n % 64 + 128) :: rest) =
      (Char.ofNat n, 3) := by
  obtain ⟨low, high, hbounds, hsecond⟩ := exists_tailBounds?_three hlow hhigh hn
  have hbetween : (decide (n / 64 % 64 + 128 < low) || decide (high < n / 64 % 64 + 128)) =
      false := by
    simp only [Bool.or_eq_false_iff, decide_eq_false_iff_not]
    omega
  have hthird : isTail (n % 64 + 128) = true := isTail_iff.mpr (by omega)
  have hvalue : (n / 4096 + 224 - 0xE0) * 0x1000 + (n / 64 % 64 + 128 - 0x80) * 0x40 +
      (n % 64 + 128 - 0x80) = n := by omega
  unfold readChar
  rw [hbounds]
  change (if (_ || _) = true then _ else _) = _
  rw [hbetween, if_neg Bool.false_ne_true, if_neg (by decide)]
  dsimp only
  rw [hthird, hvalue]
  rfl

theorem exists_tailBounds?_four (hlow : 0x10000 ≤ n) (hn : n.isValidChar) :
    ∃ low high, tailBounds? (n / 262144 + 240) = some (3, low, high) ∧
      low ≤ n / 4096 % 64 + 128 ∧ n / 4096 % 64 + 128 ≤ high := by
  rw [Nat.isValidChar] at hn
  rw [tailBounds?, if_neg (by omega), if_neg (by omega), if_neg (by omega), if_neg (by omega),
    if_neg (by omega), if_neg (by omega)]
  by_cases hfirst : n / 262144 + 240 = 0xF0
  · exact ⟨0x90, 0xBF, if_pos hfirst, by omega⟩
  rw [if_neg hfirst]
  by_cases hinner : n / 262144 + 240 ≤ 0xF3
  · exact ⟨0x80, 0xBF, if_pos hinner, by omega⟩
  rw [if_neg hinner]
  exact ⟨0x80, 0x8F, if_pos (by omega), by omega⟩

theorem readChar_four (hlow : 0x10000 ≤ n) (hn : n.isValidChar) (rest : List Nat) :
    readChar (n / 262144 + 240)
      ((n / 4096 % 64 + 128) :: (n / 64 % 64 + 128) :: (n % 64 + 128) :: rest) =
      (Char.ofNat n, 4) := by
  obtain ⟨low, high, hbounds, hsecond⟩ := exists_tailBounds?_four hlow hn
  have hbetween : (decide (n / 4096 % 64 + 128 < low) || decide (high < n / 4096 % 64 + 128)) =
      false := by
    simp only [Bool.or_eq_false_iff, decide_eq_false_iff_not]
    omega
  have hthird : isTail (n / 64 % 64 + 128) = true := isTail_iff.mpr (by omega)
  have hfourth : isTail (n % 64 + 128) = true := isTail_iff.mpr (by omega)
  have hvalue : (n / 262144 + 240 - 0xF0) * 0x40000 + (n / 4096 % 64 + 128 - 0x80) * 0x1000 +
      (n / 64 % 64 + 128 - 0x80) * 0x40 + (n % 64 + 128 - 0x80) = n := by omega
  unfold readChar
  rw [hbounds]
  change (if (_ || _) = true then _ else _) = _
  rw [hbetween, if_neg Bool.false_ne_true, if_neg (by decide)]
  dsimp only
  rw [hthird, hfourth, hvalue]
  rfl

/-- Whatever follows, the octets of a character are read as the character. -/
theorem readChar_utf8EncodeChar (c : Char) (rest : List Nat) :
    ∃ first tail, (String.utf8EncodeChar c).map UInt8.toNat = first :: tail ∧
      readChar first (tail ++ rest) = (c, tail.length + 1) := by
  have hvalid : c.toNat.isValidChar := c.valid
  have hlimit : c.toNat < 0x110000 := by
    rw [Nat.isValidChar] at hvalid
    omega
  have hc : Char.ofNat c.toNat = c := Char.ofNat_toNat c
  have hoctet {m : Nat} (hm : m < 256) : (UInt8.ofNat m).toNat = m := UInt8.toNat_ofNat_of_lt' hm
  have hval : c.val.toNat = c.toNat := rfl
  simp only [String.utf8EncodeChar, hval]
  by_cases hone : c.toNat ≤ 0x7F
  · have hread := readChar_one (Nat.lt_succ_of_le hone) rest
    rw [if_pos hone, List.map_singleton, hoctet (by omega)]
    exact ⟨_, [], rfl, hread.trans (by rw [hc]; rfl)⟩
  rw [if_neg hone]
  by_cases htwo : c.toNat ≤ 0x7FF
  · have hread := readChar_two (Nat.lt_of_not_le hone) htwo rest
    rw [if_pos htwo, List.map_cons, List.map_singleton, hoctet (by omega), hoctet (by omega),
      Nat.mod_eq_of_lt (by omega : c.toNat / 64 < 32)]
    exact ⟨_, [_], rfl, hread.trans (by rw [hc]; rfl)⟩
  rw [if_neg htwo]
  by_cases hthree : c.toNat ≤ 0xFFFF
  · have hread := readChar_three (Nat.lt_of_not_le htwo) hthree hvalid rest
    rw [if_pos hthree, List.map_cons, List.map_cons, List.map_singleton, hoctet (by omega),
      hoctet (by omega), hoctet (by omega), Nat.mod_eq_of_lt (by omega : c.toNat / 4096 < 16)]
    exact ⟨_, [_, _], rfl, hread.trans (by rw [hc]; rfl)⟩
  · have hread := readChar_four (Nat.lt_of_not_le hthree) hvalid rest
    rw [if_neg hthree, List.map_cons, List.map_cons, List.map_cons, List.map_singleton,
      hoctet (by omega), hoctet (by omega), hoctet (by omega), hoctet (by omega),
      Nat.mod_eq_of_lt (by omega : c.toNat / 262144 < 8)]
    exact ⟨_, [_, _, _], rfl, hread.trans (by rw [hc]; rfl)⟩

/-! ### Texts -/

theorem decodeAfter_append (tail rest : List Nat) :
    decodeAfter tail.length (tail ++ rest) = decode rest := by
  induction tail with
  | nil => rfl
  | cons octet tail ih => exact ih

theorem decode_utf8EncodeChar (c : Char) (rest : List Nat) :
    decode ((String.utf8EncodeChar c).map UInt8.toNat ++ rest) = c :: decode rest := by
  obtain ⟨first, tail, hoctets, hread⟩ := readChar_utf8EncodeChar c rest
  rw [hoctets, List.cons_append, decode, decodeAfter, hread]
  exact congrArg (c :: ·) (decodeAfter_append tail rest)

theorem decode_octets (t : Text) : decode ((octets t).map UInt8.toNat) = t := by
  induction t with
  | nil => rfl
  | cons c rest ih =>
    rw [octets, List.flatMap_cons, List.map_append, decode_utf8EncodeChar]
    exact congrArg (c :: ·) ih

/-- In ASCII, characters and octets are the same. -/
theorem octets_of_isAscii {t : Text} (h : ∀ c ∈ t, IsAscii c) :
    (octets t).map (fun octet ↦ Char.ofNat octet.toNat) = t := by
  induction t with
  | nil => rfl
  | cons c rest ih =>
    obtain ⟨hc, hrest⟩ := List.forall_mem_cons.mp h
    have hone : String.utf8EncodeChar c = [UInt8.ofNat c.toNat] := if_pos (Nat.le_of_lt_succ hc)
    have htoNat : (UInt8.ofNat c.toNat).toNat = c.toNat :=
      UInt8.toNat_ofNat_of_lt' (Nat.lt_trans hc (by decide))
    rw [octets, List.flatMap_cons, hone, List.map_append, List.map_singleton, htoNat,
      Char.ofNat_toNat]
    exact congrArg (c :: ·) (ih hrest)

end UrlRouting.Text.Utf8
