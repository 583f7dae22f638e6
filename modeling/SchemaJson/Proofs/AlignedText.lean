import Mathlib.Data.List.Chain
import SchemaJson.Bytes

/-! Texts in which every cut beside an ASCII byte falls between two characters. Every string is
such a text, and so are the parts that are cut out of one beside ASCII bytes. -/

namespace SchemaJson

def isAscii (byte : UInt8) : Bool := byte < 0x80

theorem continuesChar_eq_false_of_isAscii {byte : UInt8} (h : isAscii byte = true) :
    continuesChar byte = false := by
  have hbits : ∀ bits : BitVec 8, isAscii ⟨bits⟩ = true → continuesChar ⟨bits⟩ = false := by
    decide
  exact hbits byte.toBitVec h

namespace Bytes

/-- The text starts with a character, and so does what follows an ASCII byte. -/
structure IsAligned (text : Bytes) : Prop where
  starts : startsChar text = true
  chain : text.IsChain fun byte next => isAscii byte = true → continuesChar next = false

@[simp]
theorem isAligned_nil : IsAligned [] := ⟨rfl, .nil⟩

theorem isAligned_cons_of_isAscii {byte : UInt8} {text : Bytes} (hbyte : isAscii byte = true) :
    IsAligned (byte :: text) ↔ IsAligned text := by
  have hstart := continuesChar_eq_false_of_isAscii hbyte
  constructor
  · rintro ⟨-, hchain⟩
    cases text with
    | nil => exact isAligned_nil
    | cons next text =>
      obtain ⟨hnext, hchain⟩ := List.isChain_cons_cons.mp hchain
      exact ⟨by simp [startsChar, hnext hbyte], hchain⟩
  · rintro ⟨hstarts, hchain⟩
    refine ⟨by simp [startsChar, hstart], ?_⟩
    cases text with
    | nil => exact .singleton _
    | cons next text =>
      exact List.isChain_cons_cons.mpr ⟨fun _ => by simpa [startsChar] using hstarts, hchain⟩

theorem IsAligned.append {first second : Bytes} (hfirst : IsAligned first)
    (hsecond : IsAligned second) : IsAligned (first ++ second) := by
  constructor
  · cases first with
    | nil => exact hsecond.starts
    | cons byte first => exact hfirst.starts
  · refine List.isChain_append.mpr ⟨hfirst.chain, hsecond.chain, ?_⟩
    intro byte _ next hnext _
    cases second with
    | nil => simp at hnext
    | cons head second =>
      have hhead : head = next := by simpa using hnext
      simpa [startsChar, hhead] using hsecond.starts

theorem IsAligned.left {first second : Bytes} (h : IsAligned (first ++ second)) :
    IsAligned first := by
  refine ⟨?_, (List.isChain_append.mp h.chain).1⟩
  cases first with
  | nil => rfl
  | cons byte first => exact h.starts

theorem IsAligned.right {first second : Bytes} (h : IsAligned (first ++ second))
    (hstarts : startsChar second = true) : IsAligned second :=
  ⟨hstarts, (List.isChain_append.mp h.chain).2.1⟩

theorem startsChar_cons_of_isAscii {byte : UInt8} (h : isAscii byte = true) (text : Bytes) :
    startsChar (byte :: text) = true := by
  simp [startsChar, continuesChar_eq_false_of_isAscii h]

theorem isAligned_of_isAscii {text : Bytes} (h : ∀ byte ∈ text, isAscii byte = true) :
    IsAligned text := by
  induction text with
  | nil => exact isAligned_nil
  | cons byte text ih =>
    exact (isAligned_cons_of_isAscii (h byte (by simp))).mpr
      (ih fun other hmem => h other (by simp [hmem]))

theorem IsAligned.after {first second : Bytes} {byte : UInt8}
    (h : IsAligned (first ++ byte :: second)) (hbyte : isAscii byte = true) : IsAligned second :=
  (isAligned_cons_of_isAscii hbyte).mp (h.right (startsChar_cons_of_isAscii hbyte _))

theorem cut_append {content rest : Bytes} (hcontent : startsChar (content ++ rest) = true)
    (hrest : startsChar rest = true) : cut (content ++ rest) content.length = content := by
  simp [cut, hcontent, hrest]

theorem isAligned_cons_of_notAscii {lead : UInt8} {rest : Bytes} (hlead : 0xc0 ≤ lead)
    (hrest : ∀ byte ∈ rest, isAscii byte = false) : IsAligned (lead :: rest) := by
  have hbits : ∀ bits : BitVec 8, 0xc0 ≤ (⟨bits⟩ : UInt8) →
      continuesChar ⟨bits⟩ = false ∧ isAscii ⟨bits⟩ = false := by
    decide
  obtain ⟨hstart, hascii⟩ := hbits lead.toBitVec hlead
  refine ⟨by simp [startsChar, hstart], ?_⟩
  clear hlead hstart
  induction rest generalizing lead with
  | nil => exact .singleton _
  | cons byte rest ih =>
    exact List.isChain_cons_cons.mpr ⟨fun h => by simp [hascii] at h,
      ih (fun other hmem => hrest other (by simp [hmem])) (hrest byte (by simp))⟩

theorem isAligned_utf8EncodeChar (c : Char) : IsAligned (String.utf8EncodeChar c) := by
  have hlead : ∀ n, 0xc0 ≤ n → n < 256 → 0xc0 ≤ UInt8.ofNat n := by
    intro n hlow hhigh
    have hsize : (UInt8.ofNat n).toNat = n := Nat.mod_eq_of_lt hhigh
    rw [UInt8.le_iff_toNat_le, hsize]
    exact hlow
  have hcontinues : ∀ n, 0x80 ≤ n → n < 256 → isAscii (UInt8.ofNat n) = false := by
    intro n hlow hhigh
    have hsize : (UInt8.ofNat n).toNat = n := Nat.mod_eq_of_lt hhigh
    simp only [isAscii, decide_eq_false_iff_not, UInt8.lt_iff_toNat_lt, hsize]
    change ¬ n < 128
    omega
  simp only [String.utf8EncodeChar]
  split
  next h =>
    refine isAligned_of_isAscii fun byte hmem => ?_
    rw [List.mem_singleton.mp hmem, isAscii, decide_eq_true_eq, UInt8.lt_iff_toNat_lt]
    change c.val.toNat % 256 < 128
    omega
  next =>
    split
    next =>
      refine isAligned_cons_of_notAscii (hlead _ (by omega) (by omega)) ?_
      simp only [List.mem_singleton, forall_eq]
      exact hcontinues _ (by omega) (by omega)
    next =>
      split
      next =>
        refine isAligned_cons_of_notAscii (hlead _ (by omega) (by omega)) ?_
        simp only [List.mem_cons, List.not_mem_nil, or_false, forall_eq_or_imp, forall_eq]
        exact ⟨hcontinues _ (by omega) (by omega), hcontinues _ (by omega) (by omega)⟩
      next =>
        refine isAligned_cons_of_notAscii (hlead _ (by omega) (by omega)) ?_
        simp only [List.mem_cons, List.not_mem_nil, or_false, forall_eq_or_imp, forall_eq]
        exact ⟨hcontinues _ (by omega) (by omega), hcontinues _ (by omega) (by omega),
          hcontinues _ (by omega) (by omega)⟩

theorem ofString_append (front back : String) :
    ofString (front ++ back) = ofString front ++ ofString back := by
  simp [ofString]

theorem isAligned_ofString (text : String) : IsAligned (ofString text) := by
  have hbytes : ofString text = text.toList.flatMap String.utf8EncodeChar := by
    simp [ofString, ← String.utf8Encode_toList, List.utf8Encode]
  rw [hbytes]
  induction text.toList with
  | nil => exact isAligned_nil
  | cons c chars ih =>
    rw [List.flatMap_cons]
    exact (isAligned_utf8EncodeChar c).append ih

end Bytes

end SchemaJson
