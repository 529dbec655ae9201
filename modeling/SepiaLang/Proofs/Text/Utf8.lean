import SepiaLang.Text.Utf8

/-!
# Bytes that are read back

* `Text.bytes`: the bytes of a text.
* `decodeFrom_char`: the bytes of one character are decoded to it, whatever follows.
* **`decodeUtf8_bytes`**: the bytes of a text are decoded to the text.
-/

namespace SepiaLang.Text

/-- The bytes that a text is kept in. -/
def bytes (text : String) : List UInt8 := text.toList.flatMap String.utf8EncodeChar

theorem toNat_ofNat_byte {n : Nat} (h : n < 256) : (UInt8.ofNat n).toNat = n := by
  simp
  omega

/-! ## One byte -/

section Steps

variable {position : Nat} {before : List Char} {byte : UInt8} {rest : List UInt8} {under next : Pending}

theorem decodeFrom_single (h : byte.toNat < 0x80) :
    decodeFrom position {} before (byte :: rest) =
      decodeFrom (position + 1) {} (Char.ofNat byte.toNat :: before) rest := by
  simp [decodeFrom, Pending.start?, h]

theorem decodeFrom_first (h : Pending.start? position byte = some next) (hn : next.needed ≠ 0) :
    decodeFrom position {} before (byte :: rest) = decodeFrom (position + 1) next before rest := by
  simp [decodeFrom, h, hn]

theorem decodeFrom_middle (hn : 2 ≤ under.needed) (hlow : under.low ≤ byte.toNat)
    (hhigh : byte.toNat ≤ under.high) :
    decodeFrom position under before (byte :: rest) = decodeFrom (position + 1)
      { under with bits := under.bits * 64 + byte.toNat % 64, needed := under.needed - 1
                   low := 0x80, high := 0xBF } before rest := by
  have h0 : under.needed ≠ 0 := by omega
  have h1 : under.needed ≠ 1 := by omega
  simp [decodeFrom, h0, h1, hlow, hhigh]

theorem decodeFrom_last (hn : under.needed = 1) (hlow : under.low ≤ byte.toNat)
    (hhigh : byte.toNat ≤ under.high) :
    decodeFrom position under before (byte :: rest) = decodeFrom (position + 1) {}
      (Char.ofNat (under.bits * 64 + byte.toNat % 64) :: before) rest := by
  simp [decodeFrom, hn, hlow, hhigh]

end Steps

/-! ## One character -/

section Widths

variable {v : Nat}

/-- The last six bits of a number, or others, in a byte after the first one. -/
theorem toNat_continuation (n : Nat) : (UInt8.ofNat (n % 64 + 128)).toNat = n % 64 + 128 :=
  toNat_ofNat_byte (by omega)

theorem start?_two (h : 0x80 ≤ v ∧ v < 0x800) (position : Nat) :
    Pending.start? position (UInt8.ofNat (v / 64 % 32 + 192)) =
      some { start := position, byte := UInt8.ofNat (v / 64 % 32 + 192), bits := v / 64, needed := 1 } := by
  have hb : (UInt8.ofNat (v / 64 % 32 + 192)).toNat = v / 64 % 32 + 192 := toNat_ofNat_byte (by omega)
  have hbits : (v / 64 % 32 + 192) % 32 = v / 64 := by omega
  simp only [Pending.start?, hb, hbits]
  rw [if_neg (by omega), if_pos (by omega)]

theorem start?_three (h : 0x800 ≤ v ∧ v < 0x10000) (position : Nat) :
    Pending.start? position (UInt8.ofNat (v / 4096 % 16 + 224)) =
      some { start := position, byte := UInt8.ofNat (v / 4096 % 16 + 224), bits := v / 4096, needed := 2
             low := if v / 4096 = 0 then 0xA0 else 0x80
             high := if v / 4096 = 13 then 0x9F else 0xBF } := by
  obtain ⟨w, hw⟩ : ∃ w, v / 4096 = w := ⟨_, rfl⟩
  have hlt : w < 16 := by omega
  rw [hw, Nat.mod_eq_of_lt hlt]
  have hb : (UInt8.ofNat (w + 224)).toNat = w + 224 := toNat_ofNat_byte (by omega)
  have hbits : (w + 224) % 16 = w := by omega
  simp only [Pending.start?, hb, hbits]
  rw [if_neg (by omega), if_neg (by omega), if_pos (by omega)]
  simp

theorem start?_four (h : 0x10000 ≤ v ∧ v < 0x110000) (position : Nat) :
    Pending.start? position (UInt8.ofNat (v / 262144 % 8 + 240)) =
      some { start := position, byte := UInt8.ofNat (v / 262144 % 8 + 240), bits := v / 262144, needed := 3
             low := if v / 262144 = 0 then 0x90 else 0x80
             high := if v / 262144 = 4 then 0x8F else 0xBF } := by
  obtain ⟨w, hw⟩ : ∃ w, v / 262144 = w := ⟨_, rfl⟩
  have hlt : w < 5 := by omega
  rw [hw, Nat.mod_eq_of_lt (by omega)]
  have hb : (UInt8.ofNat (w + 240)).toNat = w + 240 := toNat_ofNat_byte (by omega)
  have hbits : (w + 240) % 8 = w := by omega
  simp only [Pending.start?, hb, hbits]
  rw [if_neg (by omega), if_neg (by omega), if_neg (by omega), if_pos (by omega)]
  simp

end Widths

/-- **The bytes of a character are decoded to it**, between characters and whatever follows. -/
theorem decodeFrom_char (c : Char) (position : Nat) (before : List Char) (rest : List UInt8) :
    ∃ position', decodeFrom position {} before (String.utf8EncodeChar c ++ rest) =
      decodeFrom position' {} (c :: before) rest := by
  have hvalid : c.val.toNat < 0xD800 ∨ 0xDFFF < c.val.toNat ∧ c.val.toNat < 0x110000 := c.valid
  have hc : Char.ofNat c.val.toNat = c := Char.ofNat_toNat c
  unfold String.utf8EncodeChar
  generalize c.val.toNat = v at *
  have h₁ := toNat_continuation v
  have h₂ := toNat_continuation (v / 64)
  have h₃ := toNat_continuation (v / 4096)
  dsimp only
  split
  · next hle =>
    have hb : (UInt8.ofNat v).toNat = v := toNat_ofNat_byte (by omega)
    refine ⟨position + 1, ?_⟩
    rw [List.cons_append, List.nil_append, decodeFrom_single (by omega), hb, hc]
  split
  · next hgt hle =>
    have hv : v / 64 * 64 + (v % 64 + 128) % 64 = v := by omega
    refine ⟨position + 1 + 1, ?_⟩
    rw [List.cons_append, List.cons_append, List.nil_append,
      decodeFrom_first (start?_two (by omega) position) (by simp),
      decodeFrom_last rfl (by rw [h₁]; simp) (by rw [h₁]; dsimp only; omega), h₁, hv, hc]
  split
  · next hgt hle =>
    -- the bounds of the second byte keep out what is too small, and the surrogates
    have hlow : (if v / 4096 = 0 then 0xA0 else 0x80) ≤ v / 64 % 64 + 128 := by split <;> omega
    have hhigh : v / 64 % 64 + 128 ≤ if v / 4096 = 13 then 0x9F else 0xBF := by split <;> omega
    have hv : (v / 4096 * 64 + (v / 64 % 64 + 128) % 64) * 64 + (v % 64 + 128) % 64 = v := by omega
    refine ⟨position + 1 + 1 + 1, ?_⟩
    rw [List.cons_append, List.cons_append, List.cons_append, List.nil_append,
      decodeFrom_first (start?_three (by omega) position) (by simp),
      decodeFrom_middle (by simp) (by rwa [h₂]) (by rwa [h₂]),
      decodeFrom_last rfl (by rw [h₁]; simp) (by rw [h₁]; dsimp only; omega), h₁, h₂]
    dsimp only
    rw [hv, hc]
  · next hgt =>
    -- and so do they for four bytes, with what lies beyond the last code point
    have hlow : (if v / 262144 = 0 then 0x90 else 0x80) ≤ v / 4096 % 64 + 128 := by split <;> omega
    have hhigh : v / 4096 % 64 + 128 ≤ if v / 262144 = 4 then 0x8F else 0xBF := by split <;> omega
    have hv : ((v / 262144 * 64 + (v / 4096 % 64 + 128) % 64) * 64 + (v / 64 % 64 + 128) % 64) * 64 +
        (v % 64 + 128) % 64 = v := by omega
    refine ⟨position + 1 + 1 + 1 + 1, ?_⟩
    rw [List.cons_append, List.cons_append, List.cons_append, List.cons_append, List.nil_append,
      decodeFrom_first (start?_four (by omega) position) (by simp),
      decodeFrom_middle (by simp) (by rwa [h₃]) (by rwa [h₃]),
      decodeFrom_middle (by simp) (by rw [h₂]; simp) (by rw [h₂]; dsimp only; omega),
      decodeFrom_last rfl (by rw [h₁]; simp) (by rw [h₁]; dsimp only; omega), h₁, h₂, h₃]
    dsimp only
    rw [hv, hc]

/-! ## Texts -/

theorem decodeFrom_chars (cs : List Char) (position : Nat) (before : List Char) :
    decodeFrom position {} before (cs.flatMap String.utf8EncodeChar) = .ok (before.reverse ++ cs) := by
  induction cs generalizing position before with
  | nil => simp [decodeFrom]
  | cons c cs ih =>
    obtain ⟨position', h⟩ := decodeFrom_char c position before (cs.flatMap String.utf8EncodeChar)
    rw [List.flatMap_cons, h, ih]
    simp

/-- **The bytes of a text are decoded to the text.** -/
theorem decodeUtf8_bytes (text : String) : decodeUtf8 (bytes text) = .ok text.toList :=
  decodeFrom_chars text.toList 0 []

end SepiaLang.Text
