import UrlRouting.Proofs.Text.Octets
import UrlRouting.Text.Percent

/-!
Text that is written in percent escapes throughout. It is in ASCII and free of separators, and
resolving the escapes gives the text that is written so (`decode_of_isEscaped`).
-/

namespace UrlRouting.Text.Percent

variable {n : Nat} {c : Char} {given : List UInt8} {t written : Text}

/-! ### Writing -/

/-- The character is the hexadecimal digit of a number, as a small or a capital letter if it is a
letter. -/
def IsDigitOf (n : Nat) (c : Char) : Prop := c = n.digitChar ∨ c = n.digitChar.toUpper

/-- Every octet is written as an escape. -/
inductive Escapes : List UInt8 → Text → Prop
  | nil : Escapes [] []
  | cons {octet given high low written} (hhigh : IsDigitOf (octet.toNat / 16) high)
      (hlow : IsDigitOf (octet.toNat % 16) low) (rest : Escapes given written) :
      Escapes (octet :: given) ('%' :: high :: low :: written)

/-- The octets of a text in UTF-8 are written as escapes. -/
def IsEscaped (t written : Text) : Prop := Escapes (Utf8.octets t) written

/-- The escape of an octet with capital letters. -/
def escape (octet : UInt8) : Text :=
  ['%', (octet.toNat / 16).digitChar.toUpper, (octet.toNat % 16).digitChar.toUpper]

def escaped (t : Text) : Text := (Utf8.octets t).flatMap escape

theorem isEscaped_escaped (t : Text) : IsEscaped t (escaped t) := by
  rw [IsEscaped, escaped]
  induction Utf8.octets t with
  | nil => exact .nil
  | cons octet rest ih => exact .cons (.inr rfl) (.inr rfl) ih

/-! ### Reading -/

theorem hexValue?_of_isDigitOf (h : IsDigitOf n c) (hn : n < 16) :
    hexValue? c = some n ∧ IsAscii c ∧ c.isAlphanum = true := by
  have hdigits : ∀ n < 16,
      (hexValue? n.digitChar = some n ∧ IsAscii n.digitChar ∧ n.digitChar.isAlphanum = true) ∧
      hexValue? n.digitChar.toUpper = some n ∧ IsAscii n.digitChar.toUpper ∧
        n.digitChar.toUpper.isAlphanum = true := by
    decide
  rcases h with rfl | rfl
  · exact (hdigits n hn).1
  · exact (hdigits n hn).2

theorem isAscii_of_escapes (h : Escapes given written) :
    ∀ c ∈ written, IsAscii c ∧ (c = '%' ∨ c.isAlphanum = true) := by
  induction h with
  | nil => exact fun c hc ↦ absurd hc List.not_mem_nil
  | @cons octet _ _ _ _ hhigh hlow _ ih =>
    have hoctet := octet.toNat_lt
    obtain ⟨-, hhigh⟩ := hexValue?_of_isDigitOf hhigh (by omega)
    obtain ⟨-, hlow⟩ := hexValue?_of_isDigitOf hlow (by omega)
    refine List.forall_mem_cons.mpr ⟨⟨by decide, .inl rfl⟩, ?_⟩
    refine List.forall_mem_cons.mpr ⟨⟨hhigh.1, .inr hhigh.2⟩, ?_⟩
    exact List.forall_mem_cons.mpr ⟨⟨hlow.1, .inr hlow.2⟩, ih⟩

theorem octets_of_escapes (h : Escapes given written) :
    octets written = given.map UInt8.toNat := by
  induction h with
  | nil => rfl
  | @cons octet _ _ _ _ hhigh hlow _ ih =>
    have hoctet := octet.toNat_lt
    obtain ⟨hhigh, -⟩ := hexValue?_of_isDigitOf hhigh (by omega)
    obtain ⟨hlow, -⟩ := hexValue?_of_isDigitOf hlow (by omega)
    rw [octets, hhigh, hlow, ih, List.map_cons]
    exact congrArg (· :: _) (Nat.div_add_mod _ 16)

/-- Text in ASCII is one unbroken run. -/
theorem decodeAfter_of_isAscii (h : ∀ c ∈ t, IsAscii c) (pending : Text) :
    decodeAfter pending t = Utf8.decode (octets (pending.reverse ++ t)) := by
  induction t generalizing pending with
  | nil => rw [decodeAfter, List.append_nil]
  | cons c rest ih =>
    obtain ⟨hc, hrest⟩ := List.forall_mem_cons.mp h
    have hval : c.val < 128 := UInt32.lt_iff_toNat_lt.mpr hc
    rw [decodeAfter, if_pos hval, ih hrest, List.reverse_cons, List.append_assoc,
      List.singleton_append]

theorem decode_of_isEscaped (h : IsEscaped t written) : decode written = t := by
  have hascii : ∀ c ∈ written, IsAscii c := fun c hc ↦ (isAscii_of_escapes h c hc).1
  rw [decode, decodeAfter_of_isAscii hascii, List.reverse_nil, List.nil_append,
    octets_of_escapes h, Utf8.decode_octets]

end UrlRouting.Text.Percent
