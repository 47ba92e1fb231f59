import Offload.C.Name
import Mathlib.Data.List.Forall2
import Mathlib.Data.List.Nodup

/-!
# Names that become one identifier

An identifier keeps the letters and digits of a name and has an underscore for any other character.
So two names become one identifier exactly if they are alike: as long as each other, and with the
same letters and digits at the same places.
-/

namespace Offload.C

variable {x y : String}

/-- Equal characters, or two that are neither letters nor digits. -/
def SameChar (c d : Char) : Prop := c = d ∨ c.isAlphanum = false ∧ d.isAlphanum = false

instance : DecidableRel SameChar := fun _ _ => inferInstanceAs (Decidable (_ ∨ _))

/-- Names with the same letters and digits at the same places. -/
def Alike (x y : String) : Prop := List.Forall₂ SameChar x.toList y.toList

instance : DecidableRel Alike := fun _ _ => inferInstanceAs (Decidable (List.Forall₂ _ _ _))

/-- No two of the names are alike. -/
def Apart (names : List String) : Prop := ∀ x ∈ names, ∀ y ∈ names, Alike x y → x = y

instance : DecidablePred Apart := fun names =>
  inferInstanceAs (Decidable (∀ x ∈ names, ∀ y ∈ names, Alike x y → x = y))

/-- The character of an identifier that stands for a character of a name. -/
def identChar (c : Char) : Char := if isIdentChar c then c else '_'

theorem identChar_of_isAlphanum {c : Char} (h : c.isAlphanum = true) : identChar c = c := by
  simp [identChar, isIdentChar, h]

theorem identChar_of_not_isAlphanum {c : Char} (h : c.isAlphanum = false) : identChar c = '_' := by
  by_cases hc : c = '_'
  · rw [hc]
    rfl
  · simp [identChar, isIdentChar, h, hc]

theorem isAlphanum_identChar (c : Char) : (identChar c).isAlphanum = c.isAlphanum := by
  cases hc : c.isAlphanum with
  | true => rw [identChar_of_isAlphanum hc, hc]
  | false =>
    rw [identChar_of_not_isAlphanum hc]
    rfl

theorem identChar_eq_iff {c d : Char} : identChar c = identChar d ↔ SameChar c d := by
  constructor
  · intro h
    have halphanum : c.isAlphanum = d.isAlphanum := by
      rw [← isAlphanum_identChar c, ← isAlphanum_identChar d, h]
    cases hd : d.isAlphanum with
    | true =>
      left
      rw [← identChar_of_isAlphanum hd, ← h, identChar_of_isAlphanum (halphanum.trans hd)]
    | false => exact .inr ⟨halphanum.trans hd, hd⟩
  · rintro (rfl | ⟨hc, hd⟩)
    · rfl
    · rw [identChar_of_not_isAlphanum hc, identChar_of_not_isAlphanum hd]

theorem identOf_eq (name : String) : identOf name = String.ofList (name.toList.map identChar) := rfl

theorem identOf_eq_iff : identOf x = identOf y ↔ Alike x y := by
  rw [identOf_eq, identOf_eq, String.ofList_inj, ← List.forall₂_eq_eq_eq,
    List.forall₂_map_left_iff, List.forall₂_map_right_iff, Alike]
  constructor
  · exact fun h => h.imp fun c d hcd => identChar_eq_iff.mp hcd
  · exact fun h => h.imp fun c d hcd => identChar_eq_iff.mpr hcd

theorem identOf_append (x y : String) : identOf (x ++ y) = identOf x ++ identOf y := by
  simp [identOf_eq]

theorem alike_append_right (tail : String) : Alike (x ++ tail) (y ++ tail) ↔ Alike x y := by
  rw [← identOf_eq_iff, ← identOf_eq_iff, identOf_append, identOf_append]
  simp

/-! ### The kinds of names -/

theorem localName_eq_iff : localName x = localName y ↔ Alike x y := by
  rw [localName, localName, ← identOf_eq_iff]
  simp

theorem blockName_eq_iff : blockName x = blockName y ↔ Alike x y := by
  rw [blockName, blockName, ← identOf_eq_iff]
  simp

theorem structTag_eq_iff : structTag x = structTag y ↔ Alike x y := identOf_eq_iff

theorem identOf_phiTail : identOf "__phi" = "__phi" := by decide +kernel

theorem identOf_slotTail : identOf "__slot" = "__slot" := by decide +kernel

theorem phiName_eq (dest : String) : phiName dest = localName (dest ++ "__phi") := by
  rw [phiName, localName, localName, identOf_append, identOf_phiTail, String.append_assoc]

theorem slotName_eq (dest : String) : slotName dest = localName (dest ++ "__slot") := by
  rw [slotName, localName, localName, identOf_append, identOf_slotTail, String.append_assoc]

/-- The last letters tell a temporary from a slot. -/
theorem not_alike_phi_slot (x y : String) : ¬ Alike (x ++ "__phi") (y ++ "__slot") := by
  rw [← identOf_eq_iff, identOf_append, identOf_append, identOf_phiTail, identOf_slotTail]
  intro h
  have hlast := congrArg (fun s => s.toList.getLast?) h
  simp at hlast

/-- The name of a symbol as it is spelled: an identifier cannot start with a digit. -/
def symbolText (name : String) : String :=
  if (name.toList.head?.map Char.isDigit).getD false then "g_" ++ name else name

theorem isDigit_identChar (c : Char) : (identChar c).isDigit = c.isDigit := by
  cases hc : c.isAlphanum with
  | true => rw [identChar_of_isAlphanum hc]
  | false =>
    have hdigit : c.isDigit = false := by
      simp only [Char.isAlphanum, Bool.or_eq_false_iff] at hc
      exact hc.2
    rw [identChar_of_not_isAlphanum hc, hdigit]
    rfl

theorem symbolName_eq (name : String) : symbolName name = identOf (symbolText name) := by
  have hmark : identOf "g_" = "g_" := by decide +kernel
  have hhead : ((identOf name).toList.head?.map Char.isDigit).getD false =
      (name.toList.head?.map Char.isDigit).getD false := by
    rw [identOf_eq]
    cases name.toList <;> simp [isDigit_identChar]
  simp only [symbolName, symbolText, hhead]
  split
  · rw [identOf_append, hmark]
  · rfl

theorem symbolName_eq_iff : symbolName x = symbolName y ↔ Alike (symbolText x) (symbolText y) := by
  rw [symbolName_eq, symbolName_eq, identOf_eq_iff]

/-- The members of a struct have names of their own. -/
theorem fieldName_inj {i j : Nat} : fieldName i = fieldName j ↔ i = j := by
  refine ⟨fun h => ?_, fun h => by rw [h]⟩
  have hdigits : Nat.toDigits 10 i = Nat.toDigits 10 j := by
    have hlist := congrArg String.toList h
    simpa [fieldName, toString, Nat.repr_eq_ofList_toDigits] using hlist
  rw [← Nat.ofDigitChars_ten_toDigits (n := i), hdigits, Nat.ofDigitChars_ten_toDigits]

end Offload.C
