import Mathlib.Data.List.TakeWhile
import Acpi.Name.Segment

namespace Acpi

/-- The bytes of a text. -/
def utf8 (cs : List Char) : List UInt8 := cs.flatMap String.utf8EncodeChar

theorem utf8_eq_nil {cs : List Char} : utf8 cs = [] ↔ cs = [] := by
  cases cs with
  | nil => simp [utf8]
  | cons c cs =>
    have hc : 0 < (String.utf8EncodeChar c).length := by
      rw [String.length_utf8EncodeChar]
      exact c.utf8Size_pos
    have hne := List.length_pos_iff.1 hc
    simp [utf8, hne]

theorem fromUTF8?_utf8 (cs : List Char) :
    String.fromUTF8? ⟨(utf8 cs).toArray⟩ = some (String.ofList cs) := by
  have hbytes : (⟨(utf8 cs).toArray⟩ : ByteArray) = (String.ofList cs).toByteArray := by
    apply ByteArray.ext
    rw [String.toByteArray_ofList, List.utf8Encode, List.data_toByteArray]
    rfl
  rw [hbytes, String.fromUTF8?, dif_pos (String.ofList cs).isValidUTF8]
  rfl

namespace NameSeg

/-- The codes of letters, upper and lower, of digits and of the underscore. -/
def IsNameCode (n : Nat) : Prop :=
  0x41 ≤ n ∧ n ≤ 0x5A ∨ 0x61 ≤ n ∧ n ≤ 0x7A ∨ 0x30 ≤ n ∧ n ≤ 0x39 ∨ n = 0x5F

instance (n : Nat) : Decidable (IsNameCode n) := inferInstanceAs (Decidable (_ ∨ _))

theorem IsNameCode.lt {n : Nat} (h : IsNameCode n) : n < 0x80 := by
  unfold IsNameCode at h
  omega

theorem IsNameCode.pos {n : Nat} (h : IsNameCode n) : 0 < n := by
  unfold IsNameCode at h
  omega

/-- The bytes of a written segment. -/
def Textual (bytes : List UInt8) : Prop :=
  bytes ≠ [] ∧ bytes.length ≤ 4 ∧ ∀ b ∈ bytes, IsNameCode b.toNat

instance (bytes : List UInt8) : Decidable (Textual bytes) := inferInstanceAs (Decidable (_ ∧ _))

theorem Textual.ne_zero {bytes : List UInt8} (h : Textual bytes) : ∀ b ∈ bytes, b ≠ 0 := by
  intro b hb hz
  have hpos := (h.2.2 b hb).pos
  rw [hz] at hpos
  exact Nat.lt_irrefl 0 hpos

/-- Too many bytes, or one that is none of these. -/
def Malformed (bytes : List UInt8) : Prop :=
  4 < bytes.length ∨ ∃ b ∈ bytes, ¬IsNameCode b.toNat

theorem Malformed.not_textual {bytes : List UInt8} (h : Malformed bytes) : ¬Textual bytes := by
  rintro ⟨-, hl, hall⟩
  rcases h with h | ⟨b, hb, hn⟩
  · exact Nat.not_le.2 h hl
  · exact hn (hall b hb)

/-- Bytes filled up to four with underscores. -/
def padded (bytes : List UInt8) : List UInt8 := bytes ++ List.replicate (4 - bytes.length) pad

theorem length_padded {bytes : List UInt8} (h : Textual bytes) : (padded bytes).length = 4 := by
  have hlen := h.2.1
  rw [padded, List.length_append, List.length_replicate]
  omega

theorem isNameCode_pad : IsNameCode pad.toNat := .inr (.inr (.inr rfl))

theorem Textual.padded {bytes : List UInt8} (h : Textual bytes) :
    Textual (NameSeg.padded bytes) := by
  have hlen : (NameSeg.padded bytes).length ≤ 4 := Nat.le_of_eq (length_padded h)
  obtain ⟨hne, -, hall⟩ := h
  refine ⟨List.append_ne_nil_of_left_ne_nil hne _, hlen, ?_⟩
  intro b hb
  rcases List.mem_append.1 hb with hb | hb
  · exact hall b hb
  · rw [List.eq_of_mem_replicate hb]
    exact isNameCode_pad

theorem bytes_inj {s t : NameSeg} : s.bytes = t.bytes ↔ s = t := by
  obtain ⟨bytes, hs⟩ := s
  obtain ⟨bytes', ht⟩ := t
  rw [mk.injEq]

theorem isNameChar_iff_code {c : Char} : isNameChar c = true ↔ IsNameCode c.toNat := by
  have hupper : c.isUpper = true ↔ 0x41 ≤ c.toNat ∧ c.toNat ≤ 0x5A := decide_eq_true_iff
  have hlower : c.isLower = true ↔ 0x61 ≤ c.toNat ∧ c.toNat ≤ 0x7A :=
    Bool.and_eq_true_iff.trans (and_congr decide_eq_true_iff decide_eq_true_iff)
  have hdigit : c.isDigit = true ↔ 0x30 ≤ c.toNat ∧ c.toNat ≤ 0x39 := Char.isDigit_iff_toNat
  have hunder : c = '_' ↔ c.toNat = 0x5F := by
    rw [← Char.toNat_inj]
    rfl
  change ((c.isUpper || c.isLower || c.isDigit) || c == '_') = true ↔ _
  rw [Bool.or_eq_true, Bool.or_eq_true, Bool.or_eq_true, hupper, hlower, hdigit, beq_iff_eq,
    hunder, IsNameCode, or_assoc, or_assoc]

theorem utf8EncodeChar_of_lt {c : Char} (h : c.toNat < 0x80) :
    String.utf8EncodeChar c = [c.toUInt8] := by
  refine String.utf8EncodeChar_eq_singleton (Char.utf8Size_eq_one_iff.2 ?_)
  rw [UInt32.le_iff_toNat_le]
  exact Nat.le_of_lt_succ h

theorem exists_mem_utf8EncodeChar {c : Char} (h : 0x80 ≤ c.toNat) :
    ∃ b ∈ String.utf8EncodeChar c, 0x80 ≤ b.toNat := by
  have hne : ¬c.val.toNat ≤ 0x7F := Nat.not_le.2 h
  simp only [String.utf8EncodeChar, if_neg hne]
  split
  · exact ⟨_, List.mem_cons_self, by simp only [UInt8.toNat_ofNat']; omega⟩
  · split
    · exact ⟨_, List.mem_cons_self, by simp only [UInt8.toNat_ofNat']; omega⟩
    · exact ⟨_, List.mem_cons_self, by simp only [UInt8.toNat_ofNat']; omega⟩

theorem toNat_toUInt8_of_lt {c : Char} (h : c.toNat < 0x80) : c.toUInt8.toNat = c.toNat := by
  rw [Char.toUInt8, UInt32.toNat_toUInt8]
  exact Nat.mod_eq_of_lt (Nat.lt_trans h (by decide))

theorem isNameChar_iff_utf8EncodeChar {c : Char} :
    isNameChar c = true ↔ ∀ b ∈ String.utf8EncodeChar c, IsNameCode b.toNat := by
  rw [isNameChar_iff_code]
  by_cases h : c.toNat < 0x80
  · simp [utf8EncodeChar_of_lt h, toNat_toUInt8_of_lt h]
  · obtain ⟨b, hm, hb⟩ := exists_mem_utf8EncodeChar (Nat.le_of_not_lt h)
    exact iff_of_false (fun hc => h hc.lt) fun hall => Nat.not_lt.2 hb (hall b hm).lt

theorem all_isNameChar_iff {cs : List Char} :
    cs.all isNameChar = true ↔ ∀ b ∈ utf8 cs, IsNameCode b.toNat := by
  simp only [List.all_eq_true, isNameChar_iff_utf8EncodeChar, utf8, List.mem_flatMap]
  constructor
  · rintro h b ⟨c, hc, hb⟩
    exact h c hc b hb
  · intro h c hc b hb
    exact h b ⟨c, hc, hb⟩

theorem utf8_of_all {cs : List Char} (h : cs.all isNameChar = true) :
    utf8 cs = cs.map Char.toUInt8 := by
  induction cs with
  | nil => rfl
  | cons c cs ih =>
    rw [List.all_cons, Bool.and_eq_true] at h
    have hc := utf8EncodeChar_of_lt (isNameChar_iff_code.1 h.1).lt
    rw [utf8, List.flatMap_cons, hc, List.map_cons, ← ih h.2]
    rfl

theorem short_utf8_iff {cs : List Char} :
    (utf8 cs).length ≤ 4 ∧ (∀ b ∈ utf8 cs, IsNameCode b.toNat) ↔
      cs.length ≤ 4 ∧ cs.all isNameChar = true := by
  rw [← all_isNameChar_iff]
  refine and_congr_left fun hall => ?_
  rw [utf8_of_all hall, List.length_map]

theorem textual_utf8_iff {cs : List Char} :
    Textual (utf8 cs) ↔ cs ≠ [] ∧ cs.length ≤ 4 ∧ cs.all isNameChar = true := by
  rw [Textual, ne_eq, utf8_eq_nil, short_utf8_iff]

theorem malformed_utf8_iff {cs : List Char} :
    Malformed (utf8 cs) ↔ ¬(cs.length ≤ 4 ∧ cs.all isNameChar = true) := by
  rw [← short_utf8_iff, Malformed]
  simp only [Classical.not_and_iff_not_or_not, Nat.not_le, Classical.not_forall, exists_prop]

theorem ofChars_eq_ok_iff {cs : List Char} {seg : NameSeg} :
    ofChars cs = .ok seg ↔ Textual (utf8 cs) ∧ seg.bytes = padded (utf8 cs) := by
  rw [ofChars, textual_utf8_iff]
  split
  next hnil => simp [hnil]
  next hne =>
    split
    next h =>
      rw [Except.ok.injEq, padded, utf8_of_all h.2, List.length_map]
      obtain ⟨bytes, hl⟩ := seg
      simp [hne, h, eq_comm]
    next h =>
      refine iff_of_false (fun he => ?_) fun ht => h ht.1.2
      cases he

theorem ofChars_eq_error_iff {cs : List Char} {e : NameError} :
    ofChars cs = .error e ↔ cs = [] ∧ e = .emptySegment ∨
      Malformed (utf8 cs) ∧ e = .invalidSegment := by
  rw [ofChars, malformed_utf8_iff]
  split
  next hnil => simp [hnil, eq_comm]
  next hne =>
    split
    next h => simp [hne, h]
    next h =>
      rw [Except.error.injEq]
      constructor
      · rintro rfl
        exact .inr ⟨h, rfl⟩
      · rintro (⟨hnil, -⟩ | ⟨-, rfl⟩)
        · exact absurd hnil hne
        · rfl

theorem exists_ofChars {cs : List Char} (h : Textual (utf8 cs)) : ∃ seg, ofChars cs = .ok seg := by
  cases hs : ofChars cs with
  | ok seg => exact ⟨seg, rfl⟩
  | error e =>
    rcases ofChars_eq_error_iff.1 hs with ⟨hnil, -⟩ | ⟨hm, -⟩
    · exact absurd (utf8_eq_nil.2 hnil) h.1
    · exact absurd h hm.not_textual

/-- The characters of a written segment, filled up to four with underscores. -/
def fill (cs : List Char) : List Char := cs ++ List.replicate (4 - cs.length) '_'

theorem all_fill {cs : List Char} (h : cs.all isNameChar = true) :
    (fill cs).all isNameChar = true := by
  have hpad : (List.replicate (4 - cs.length) '_').all isNameChar = true := by
    rw [List.all_eq_true]
    intro c hc
    rw [List.eq_of_mem_replicate hc]
    rfl
  rw [fill, List.all_append, h, hpad]
  rfl

theorem utf8_fill {cs : List Char} (h : cs.all isNameChar = true) :
    utf8 (fill cs) = padded (utf8 cs) := by
  rw [utf8_of_all (all_fill h), utf8_of_all h, fill, padded, List.map_append, List.map_replicate,
    List.length_map]
  rfl

theorem utf8_map_ofUInt8 {bytes : List UInt8} (h : ∀ b ∈ bytes, b.toNat < 0x80) :
    utf8 (bytes.map Char.ofUInt8) = bytes := by
  induction bytes with
  | nil => rfl
  | cons b bytes ih =>
    have hcode : (Char.ofUInt8 b).toNat = b.toNat := UInt8.toNat_toUInt32 b
    have hb : (Char.ofUInt8 b).toNat < 0x80 := hcode ▸ h b List.mem_cons_self
    have hback : (Char.ofUInt8 b).toUInt8 = b := UInt8.toUInt8_toUInt32 b
    rw [List.map_cons, utf8, List.flatMap_cons, utf8EncodeChar_of_lt hb, hback]
    exact congrArg (b :: ·) (ih fun c hc => h c (List.mem_cons_of_mem b hc))

theorem text_of_bytes {s : NameSeg} {cs : List Char} (hb : s.bytes = utf8 cs)
    (hz : ∀ b ∈ s.bytes, b ≠ 0) : s.text = String.ofList cs := by
  have hall : s.bytes.takeWhile (· != 0) = s.bytes := by
    rw [List.takeWhile_eq_self_iff]
    intro b hm
    simpa using hz b hm
  rw [text, hall, hb, fromUTF8?_utf8]
  rfl

theorem utf8_text {s : NameSeg} (h : Textual s.bytes) : utf8 s.text.toList = s.bytes := by
  have hback : utf8 (s.bytes.map Char.ofUInt8) = s.bytes :=
    utf8_map_ofUInt8 fun b hb => (h.2.2 b hb).lt
  rw [text_of_bytes hback.symm h.ne_zero, String.toList_ofList, hback]

/-- A segment that was read shows what was written, filled up to four characters. -/
theorem text_of_padded {s : NameSeg} {cs : List Char} (h : Textual (utf8 cs))
    (hb : s.bytes = padded (utf8 cs)) : s.text.toList = fill cs := by
  have hfill : s.bytes = utf8 (fill cs) := by
    rw [hb, utf8_fill (textual_utf8_iff.1 h).2.2]
  have hs : Textual s.bytes := hb ▸ h.padded
  rw [text_of_bytes hfill hs.ne_zero, String.toList_ofList]

end NameSeg

end Acpi
