import Mathlib.Data.List.Basic
import QirProfile.Text.Quoted

/-!
# Quoting is undone

Text between quotes is read back as what was written there.
-/

namespace QirProfile.Text

/-! ## 1. UTF-8 -/

theorem headChar?_encode (c : Char) (rest : List UInt8) :
    headChar? (String.utf8EncodeChar c ++ rest) = some c := by
  have hlen : (String.utf8EncodeChar c).length ≤ 4 := by
    rw [String.length_utf8EncodeChar]
    exact Char.utf8Size_le_four c
  have htake : (String.utf8EncodeChar c ++ rest).take 4 =
      String.utf8EncodeChar c ++ rest.take (4 - (String.utf8EncodeChar c).length) := by
    rw [List.take_append, List.take_of_length_le hlen]
  unfold headChar?
  rw [htake]
  have happend : (⟨(String.utf8EncodeChar c ++
      rest.take (4 - (String.utf8EncodeChar c).length)).toArray⟩ : ByteArray) =
      (String.utf8EncodeChar c).toByteArray ++
        (rest.take (4 - (String.utf8EncodeChar c).length)).toByteArray := by
    apply ByteArray.ext
    simp
  rw [happend]
  exact ByteArray.utf8DecodeChar?_utf8EncodeChar_append

theorem utf8_cons (c : Char) (cs : List Char) :
    utf8 (c :: cs) = String.utf8EncodeChar c ++ utf8 cs :=
  List.flatMap_cons

theorem utf8_append (cs ds : List Char) : utf8 (cs ++ ds) = utf8 cs ++ utf8 ds :=
  List.flatMap_append

theorem decodeLossyFuel_utf8 (cs : List Char) (fuel : Nat) (h : (utf8 cs).length ≤ fuel) :
    decodeLossyFuel fuel (utf8 cs) = cs := by
  induction cs generalizing fuel with
  | nil => cases fuel <;> rfl
  | cons c cs ih =>
    rw [utf8_cons] at h ⊢
    have hhead := headChar?_encode c (utf8 cs)
    have hsize : (String.utf8EncodeChar c).length = c.utf8Size := String.length_utf8EncodeChar c
    have hpos : 0 < c.utf8Size := Char.utf8Size_pos c
    cases henc : String.utf8EncodeChar c with
    | nil =>
      rw [henc] at hsize
      simp only [List.length_nil] at hsize
      omega
    | cons b bs =>
      rw [henc] at h hhead hsize
      simp only [List.length_cons, List.cons_append, List.length_append] at h hsize
      have hdrop : (bs ++ utf8 cs).drop (c.utf8Size - 1) = utf8 cs := by
        have hbs : c.utf8Size - 1 = bs.length := by omega
        rw [hbs, List.drop_left]
      cases fuel with
      | zero => omega
      | succ fuel =>
        simp only [List.cons_append] at hhead ⊢
        simp only [decodeLossyFuel, hhead, hdrop]
        rw [ih fuel (by omega)]

theorem decodeLossy_utf8 (cs : List Char) : decodeLossy (utf8 cs) = cs :=
  decodeLossyFuel_utf8 cs _ (Nat.le_refl _)

theorem le_of_mem_encode {c : Char} (h : 0x80 ≤ c.toNat) {b : UInt8}
    (hb : b ∈ String.utf8EncodeChar c) : 0x80 ≤ b.toNat := by
  have hv : ¬ c.val.toNat ≤ 0x7f := by
    change 0x80 ≤ c.val.toNat at h
    omega
  unfold String.utf8EncodeChar at hb
  simp only [hv, if_false] at hb
  have ofNat_le : ∀ n : Nat, n % 256 = n → 0x80 ≤ n → 0x80 ≤ (UInt8.ofNat n).toNat := by
    intro n hn hle
    rw [UInt8.toNat_ofNat']
    omega
  split at hb
  · simp only [List.mem_cons, List.not_mem_nil, or_false] at hb
    rcases hb with rfl | rfl <;> exact ofNat_le _ (by omega) (by omega)
  split at hb
  · simp only [List.mem_cons, List.not_mem_nil, or_false] at hb
    rcases hb with rfl | rfl | rfl <;> exact ofNat_le _ (by omega) (by omega)
  · simp only [List.mem_cons, List.not_mem_nil, or_false] at hb
    rcases hb with rfl | rfl | rfl | rfl <;> exact ofNat_le _ (by omega) (by omega)

theorem encode_ascii {c : Char} (h : c.toNat < 0x80) :
    String.utf8EncodeChar c = [UInt8.ofNat c.toNat] := by
  have hv : c.val.toNat ≤ 0x7f := Nat.le_of_lt_succ h
  unfold String.utf8EncodeChar
  simp only [hv, if_true]
  rfl

/-! ## 2. Escapes -/

theorem unescapeBytes_cons {b : UInt8} (h : b ≠ 0x5C) (rest : List UInt8) :
    unescapeBytes (b :: rest) = b :: unescapeBytes rest := by
  rw [unescapeBytes.eq_def]
  split
  · rename_i he
    cases he
  · rename_i he
    cases he
    exact absurd rfl h
  · rename_i he
    cases he
    exact absurd rfl h
  · rename_i he
    cases he
    rfl

theorem unescapeBytes_plain {bytes : List UInt8} (h : 0x5C ∉ bytes) :
    unescapeBytes bytes = bytes := by
  induction bytes with
  | nil => rfl
  | cons b bytes ih =>
    rw [List.mem_cons, not_or] at h
    rw [unescapeBytes_cons (Ne.symm h.1), ih h.2]

theorem hexDigit_facts : ∀ n < 16, (hexDigit n).toNat < 0x80 ∧ (hexDigit n).toNat ≠ 0x5C ∧
    (hexDigit n).toNat ≠ 0x2B ∧ hexDigit n ≠ '"' ∧ hexValue? (hexDigit n) = some n := by
  decide

theorem le_hexDigit : ∀ n < 16, 0x20 ≤ (hexDigit n).toNat := by
  decide

theorem toNat_ofNat_ascii {n : Nat} (h : n < 0x80) : (Char.ofNat n).toNat = n := by
  have hvalid : n.isValidChar := Or.inl (by omega)
  unfold Char.ofNat
  rw [dif_pos hvalid]
  rfl

theorem unescapeBytes_hexByte (b : UInt8) (rest : List UInt8) :
    unescapeBytes (utf8 ('\\' :: hexByte b) ++ rest) = b :: unescapeBytes rest := by
  have hb : b.toNat < 256 := b.toNat_lt
  obtain ⟨hhigh, hhighNe, hhighPlus, -, hhighValue⟩ := hexDigit_facts (b.toNat / 16) (by omega)
  obtain ⟨hlow, -, -, -, hlowValue⟩ := hexDigit_facts (b.toNat % 16) (by omega)
  generalize hd : hexDigit (b.toNat / 16) = d at hhigh hhighNe hhighPlus hhighValue
  generalize he : hexDigit (b.toNat % 16) = e at hlow hlowValue
  have hbytes : utf8 ('\\' :: hexByte b) = [0x5C, UInt8.ofNat d.toNat, UInt8.ofNat e.toNat] := by
    simp only [hexByte, hd, he, utf8_cons, encode_ascii hhigh, encode_ascii hlow]
    rfl
  have code : ∀ c : Char, c.toNat < 0x80 → (UInt8.ofNat c.toNat).toNat = c.toNat := by
    intro c hc
    rw [UInt8.toNat_ofNat']
    omega
  have hne : UInt8.ofNat d.toNat ≠ 0x5C := by
    intro heq
    exact hhighNe (by rw [← code d hhigh, heq]; rfl)
  have hplus : (UInt8.ofNat d.toNat == 0x2B) = false := by
    rw [beq_eq_false_iff_ne]
    intro heq
    exact hhighPlus (by rw [← code d hhigh, heq]; rfl)
  have hvalue : escapeValue? (UInt8.ofNat d.toNat) (UInt8.ofNat e.toNat) = some b := by
    simp only [escapeValue?, hplus, code d hhigh, code e hlow, Char.ofNat_toNat, hhighValue,
      hlowValue, Bool.false_eq_true, if_false]
    rw [Nat.div_add_mod, UInt8.ofNat_toNat]
  rw [hbytes]
  simp only [List.cons_append, List.nil_append]
  rw [unescapeBytes.eq_def]
  split
  · rename_i heq
    cases heq
  · rename_i heq
    simp only [List.cons.injEq, true_and] at heq
    exact absurd heq.1 hne
  · rename_i _ a c tail _ heq
    simp only [List.cons.injEq, true_and] at heq
    obtain ⟨rfl, rfl, rfl⟩ := heq
    rw [hvalue]
  · rename_i _ tail hthree heq
    simp only [List.cons.injEq] at heq
    exact absurd heq.2.symm (hthree _ _ _ heq.1.symm)

theorem unescapeBytes_escapeByte (b : UInt8) (rest : List UInt8) :
    unescapeBytes (utf8 (escapeByte b) ++ rest) = b :: unescapeBytes rest := by
  unfold escapeByte
  by_cases hplain : isPlainByte b
  · rw [if_pos hplain]
    simp only [isPlainByte, Bool.and_eq_true, decide_eq_true_eq, bne_iff_ne, ne_eq] at hplain
    obtain ⟨⟨⟨-, hlt⟩, -⟩, hne⟩ := hplain
    have hlt : b.toNat < 0x7F := hlt
    have hchar : (Char.ofNat b.toNat).toNat = b.toNat := toNat_ofNat_ascii (by omega)
    have henc : utf8 [Char.ofNat b.toNat] = [b] := by
      rw [utf8_cons, encode_ascii (by omega), hchar]
      simp [utf8]
    rw [henc]
    exact unescapeBytes_cons hne rest
  · rw [if_neg hplain]
    exact unescapeBytes_hexByte b rest

theorem unescapeBytes_escape (bytes : List UInt8) :
    unescapeBytes (utf8 (bytes.flatMap escapeByte)) = bytes := by
  induction bytes with
  | nil => rfl
  | cons b bytes ih =>
    rw [List.flatMap_cons, utf8_append, unescapeBytes_escapeByte, ih]

/-! ## 3. Texts -/

/-- A text is its escaped bytes, unescaped. -/
theorem unescape_escapeBytes (s : String) :
    unescape (escapeBytes (utf8Bytes s)).toList = s := by
  simp only [unescape, escapeBytes, String.toList_ofList, unescapeBytes_escape, utf8Bytes,
    decodeLossy_utf8, String.ofList_toList]

theorem backslash_not_mem_utf8 {cs : List Char} (h : '\\' ∉ cs) : 0x5C ∉ utf8 cs := by
  intro hmem
  obtain ⟨c, hc, hb⟩ := List.mem_flatMap.mp hmem
  by_cases hascii : c.toNat < 0x80
  · rw [encode_ascii hascii, List.mem_singleton] at hb
    have hcode : c.toNat = 0x5C := by
      have := congrArg UInt8.toNat hb
      rw [UInt8.toNat_ofNat'] at this
      have hlit : (0x5C : UInt8).toNat = 0x5C := rfl
      omega
    have hchar : c = '\\' := by
      rw [← Char.ofNat_toNat c, hcode]
    exact h (hchar ▸ hc)
  · have hle := le_of_mem_encode (by omega) hb
    have hlit : (0x5C : UInt8).toNat = 0x5C := rfl
    omega

theorem unescape_plain {s : String} (h : '\\' ∉ s.toList) : unescape s.toList = s := by
  simp only [unescape, unescapeBytes_plain (backslash_not_mem_utf8 h), decodeLossy_utf8,
    String.ofList_toList]

theorem mem_escapeByte {b : UInt8} {c : Char} (h : c ∈ escapeByte b) :
    0x20 ≤ c.toNat ∧ c ≠ '"' := by
  have hb : b.toNat < 256 := b.toNat_lt
  unfold escapeByte at h
  by_cases hplain : isPlainByte b
  · rw [if_pos hplain, List.mem_singleton] at h
    simp only [isPlainByte, Bool.and_eq_true, decide_eq_true_eq, bne_iff_ne, ne_eq] at hplain
    obtain ⟨⟨⟨hle, hlt⟩, hne⟩, -⟩ := hplain
    have hle : 0x20 ≤ b.toNat := hle
    have hlt : b.toNat < 0x7F := hlt
    have hcode : c.toNat = b.toNat := by rw [h, toNat_ofNat_ascii (by omega)]
    refine ⟨by omega, fun heq => hne ?_⟩
    rw [heq] at hcode
    exact UInt8.toNat_inj.mp hcode.symm
  · rw [if_neg hplain] at h
    obtain ⟨-, -, -, hhigh, -⟩ := hexDigit_facts (b.toNat / 16) (by omega)
    obtain ⟨-, -, -, hlow, -⟩ := hexDigit_facts (b.toNat % 16) (by omega)
    simp only [hexByte, List.mem_cons, List.not_mem_nil, or_false] at h
    rcases h with rfl | rfl | rfl
    · exact ⟨by decide, by decide⟩
    · exact ⟨le_hexDigit _ (by omega), hhigh⟩
    · exact ⟨le_hexDigit _ (by omega), hlow⟩

theorem mem_escapeBytes {bytes : List UInt8} {c : Char} (h : c ∈ (escapeBytes bytes).toList) :
    0x20 ≤ c.toNat ∧ c ≠ '"' := by
  simp only [escapeBytes, String.toList_ofList, List.mem_flatMap] at h
  obtain ⟨b, -, hc⟩ := h
  exact mem_escapeByte hc

theorem quote_not_mem_escapeBytes (bytes : List UInt8) : '"' ∉ (escapeBytes bytes).toList :=
  fun h => (mem_escapeBytes h).2 rfl

end QirProfile.Text
