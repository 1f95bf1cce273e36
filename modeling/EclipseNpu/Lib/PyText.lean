import EclipseNpu.Lib.Text
import Mathlib.Data.Int.ModEq
import Mathlib.Tactic.Ring

/-!
# Lib — PyText

Text as a Python program reads it: whitespace of all scripts, the lines of a
file opened as text, and integers (`int` with base 10 and base 0). Against
the C readers of `Text` (`strtol` and `strtoul` with base 0): a hexadecimal
literal is one number for both (`strtoul_hex`), and so is a decimal literal
unless it starts with the digit 0, which C takes for octal (`strtol_decimal`).
-/

namespace EclipseNpu.Lib

/-! ## Lines and words -/

/-- `str.isspace`. -/
def pyIsSpace (c : Char) : Bool :=
  decide ((9 ≤ c.toNat ∧ c.toNat ≤ 13) ∨ (28 ≤ c.toNat ∧ c.toNat ≤ 32)
    ∨ c.toNat = 0x85 ∨ c.toNat = 0xA0 ∨ c.toNat = 0x1680
    ∨ (0x2000 ≤ c.toNat ∧ c.toNat ≤ 0x200A) ∨ c.toNat = 0x2028 ∨ c.toNat = 0x2029
    ∨ c.toNat = 0x202F ∨ c.toNat = 0x205F ∨ c.toNat = 0x3000)

/-- `str.strip`. -/
def pyStrip (s : List Char) : List Char :=
  (s.dropWhile pyIsSpace).rdropWhile pyIsSpace

/-- `str.split` without an argument. -/
def pySplit (s : List Char) : List (List Char) := wordsFrom pyIsSpace [] s

/-- `\n`, `\r` and `\r\n` end a line. -/
def isNewline (c : Char) : Bool := c == '\n' || c == '\r'

/-- The lines of a file opened as text, without the empty ones. -/
def pyLines (text : List Char) : List (List Char) := wordsFrom isNewline [] text

/-- Stripping a line keeps its words. -/
theorem pySplit_pyStrip (s : List Char) : pySplit (pyStrip s) = pySplit s := by
  have hlead : pySplit (s.dropWhile pyIsSpace) = pySplit s := by
    have h := wordsFrom_seps (b := s.takeWhile pyIsSpace)
      (fun c hc => List.mem_takeWhile_imp hc) (s.dropWhile pyIsSpace)
    rw [List.takeWhile_append_dropWhile] at h
    exact h.symm
  have htrail : ∀ t : List Char, pySplit (t.rdropWhile pyIsSpace) = pySplit t := by
    intro t
    have h := wordsFrom_append_seps (t := t.rtakeWhile pyIsSpace)
      (fun c hc => List.mem_rtakeWhile_imp hc) [] (t.rdropWhile pyIsSpace)
    rw [List.rdropWhile_append_rtakeWhile] at h
    exact h.symm
  rw [pyStrip, htrail, hlead]

theorem pyStrip_head {s t : List Char} {c : Char} (h : pyStrip s = c :: t) :
    pyIsSpace c = false := by
  have hprefix : pyStrip s <+: s.dropWhile pyIsSpace := List.rdropWhile_prefix _ _
  rw [h] at hprefix
  obtain ⟨rest, hrest⟩ := hprefix
  have hne : s.dropWhile pyIsSpace ≠ [] := by
    rw [← hrest]
    simp
  have hhead := List.head_dropWhile_not pyIsSpace hne
  simp only [← hrest, List.cons_append, List.head_cons] at hhead
  exact hhead

/-- A mark without whitespace starts a line if it starts its first word. -/
theorem isPrefixOf_takeWhile {mark : List Char}
    (hmark : mark.all (fun c => !pyIsSpace c) = true) (s : List Char) :
    mark.isPrefixOf (s.takeWhile fun c => !pyIsSpace c) = mark.isPrefixOf s := by
  induction mark generalizing s with
  | nil => rfl
  | cons c mark ih =>
      cases s with
      | nil => rfl
      | cons d s =>
          rw [List.all_cons, Bool.and_eq_true, Bool.not_eq_true'] at hmark
          obtain ⟨hc, hmark⟩ := hmark
          cases hd : pyIsSpace d with
          | true =>
              have hne : c ≠ d := by
                rintro rfl
                rw [hc] at hd
                cases hd
              rw [List.takeWhile_cons_of_neg (by simp [hd])]
              simp [List.isPrefixOf, hne]
          | false =>
              rw [List.takeWhile_cons_of_pos (by simp [hd]), List.isPrefixOf, List.isPrefixOf,
                ih hmark]

/-! ## `int` -/

/-- The digits zero of all scripts (Unicode 14); nine digits follow each. -/
def decimalZeros : List Nat :=
  [0x30, 0x660, 0x6F0, 0x7C0, 0x966, 0x9E6, 0xA66, 0xAE6, 0xB66, 0xBE6, 0xC66, 0xCE6,
    0xD66, 0xDE6, 0xE50, 0xED0, 0xF20, 0x1040, 0x1090, 0x17E0, 0x1810, 0x1946, 0x19D0,
    0x1A80, 0x1A90, 0x1B50, 0x1BB0, 0x1C40, 0x1C50, 0xA620, 0xA8D0, 0xA900, 0xA9D0,
    0xA9F0, 0xAA50, 0xABF0, 0xFF10, 0x104A0, 0x10D30, 0x11066, 0x110F0, 0x11136,
    0x111D0, 0x112F0, 0x11450, 0x114D0, 0x11650, 0x116C0, 0x11730, 0x118E0, 0x11950,
    0x11C50, 0x11D50, 0x11DA0, 0x16A60, 0x16AC0, 0x16B50, 0x1D7CE, 0x1D7D8, 0x1D7E2,
    0x1D7EC, 0x1D7F6, 0x1E140, 0x1E2F0, 0x1E950, 0x1FBF0]

/-- A digit of any script as an ASCII digit. -/
def toAsciiDigit (c : Char) : Char :=
  if c.toNat < 128 then c
  else match decimalZeros.find? fun z => z ≤ c.toNat && c.toNat < z + 10 with
    | some z => Char.ofNat (48 + (c.toNat - z))
    | none => '?'

/-- Digits with single underscores between them. -/
def isDigits (b : Nat) (afterDigit : Bool) : List Char → Bool
  | [] => afterDigit
  | c :: s =>
      if c = '_' then afterDigit && isDigits b false s
      else decide (digitValue c < b) && isDigits b true s

def pyDigits (b : Nat) (s : List Char) : Option Nat :=
  if isDigits b false s then some (readDigits b (s.filter (· != '_'))) else none

/-- The base a literal names. -/
def markedBase : List Char → Option Nat
  | z :: x :: _ =>
      if z ≠ '0' then none
      else if x = 'x' ∨ x = 'X' then some 16
      else if x = 'o' ∨ x = 'O' then some 8
      else if x = 'b' ∨ x = 'B' then some 2
      else none
  | _ => none

/-- After the sign, with base 0. One underscore may follow the mark; without a
mark only zero starts with the digit 0. -/
def pyLiteral (s : List Char) : Option Nat :=
  match markedBase s with
  | some b => pyDigits b (if (s.drop 2).head? = some '_' then s.drop 3 else s.drop 2)
  | none => (pyDigits 10 s).filter fun m => s.head? != some '0' || m == 0

/-- `int`, with what follows the sign read by `magnitude`. -/
def pySigned (magnitude : List Char → Option Nat) (s : List Char) : Option Int :=
  let (negative, s) := readSign ((pyStrip s).map toAsciiDigit)
  (magnitude s).map fun (m : Nat) => if negative then -(m : Int) else m

/-- `int(s)`. -/
def pyInt (s : List Char) : Option Int := pySigned (pyDigits 10) s

/-- `int(s, 0)`. -/
def pyInt0 (s : List Char) : Option Int := pySigned pyLiteral s

/-! ## Literals both languages read -/

/-- A sign or an ASCII letter or digit. -/
def IsLiteralChar (c : Char) : Prop := c = '-' ∨ c = '+' ∨ digitValue c < 36

/-- The characters after an optional sign. -/
def unsigned (s : List Char) : List Char := (readSign s).2

/-- An optional sign and ASCII digits. -/
def IsDecimal (s : List Char) : Prop :=
  unsigned s ≠ [] ∧ ∀ c ∈ unsigned s, digitValue c < 10

/-- An optional sign, `0x` or `0X`, and digits. -/
def IsHex (s : List Char) : Prop :=
  hasHexMark (unsigned s) = true ∧ ∀ c ∈ (unsigned s).drop 2, digitValue c < 16

instance (s : List Char) : Decidable (IsDecimal s) :=
  decidable_of_iff (unsigned s ≠ [] ∧ (unsigned s).all (fun c => digitValue c < 10) = true)
    (by simp [IsDecimal])

instance (s : List Char) : Decidable (IsHex s) :=
  decidable_of_iff (hasHexMark (unsigned s) = true
      ∧ ((unsigned s).drop 2).all (fun c => digitValue c < 16) = true)
    (by simp only [IsHex, List.all_eq_true, decide_eq_true_eq])

/-- A decimal number in the range of `strtol`. -/
def FitsLong (s : List Char) : Prop :=
  readDigits 10 (unsigned s) < 2 ^ 63
    ∨ (readSign s).1 = true ∧ readDigits 10 (unsigned s) = 2 ^ 63

instance (s : List Char) : Decidable (FitsLong s) := inferInstanceAs (Decidable (_ ∨ _))

/-- With a leading zero, the digits mean the same in base 8, up to their first
digit above 7, as in base 10. -/
def OctalAgrees (n : Nat) (s : List Char) : Prop :=
  (unsigned s).head? = some '0' →
    readDigits 10 (unsigned s) ≡ readDigits 8 (unsigned s) [MOD n]

instance (n : Nat) (s : List Char) : Decidable (OctalAgrees n s) :=
  inferInstanceAs (Decidable (_ → _))

section LiteralChar

variable {c : Char}

theorem IsLiteralChar.range (hc : IsLiteralChar c) : 43 ≤ c.toNat ∧ c.toNat ≤ 122 := by
  rcases hc with rfl | rfl | hc
  · decide
  · decide
  · unfold digitValue at hc
    split_ifs at hc <;> omega

theorem IsLiteralChar.not_pyIsSpace (hc : IsLiteralChar c) : pyIsSpace c = false := by
  have := hc.range
  rw [pyIsSpace, decide_eq_false_iff_not]
  omega

theorem IsLiteralChar.not_isSpace (hc : IsLiteralChar c) : isSpace c = false := by
  have := hc.range
  rw [isSpace, decide_eq_false_iff_not]
  omega

theorem IsLiteralChar.toAsciiDigit (hc : IsLiteralChar c) : toAsciiDigit c = c := by
  have := hc.range
  exact if_pos (by omega)

end LiteralChar

theorem pyStrip_eq_self {s : List Char} (hs : ∀ c ∈ s, pyIsSpace c = false) :
    pyStrip s = s := by
  have hdrop : s.dropWhile pyIsSpace = s := by
    cases s with
    | nil => rfl
    | cons c s => exact List.dropWhile_cons_of_neg (by simp [hs c])
  rw [pyStrip, hdrop, List.rdropWhile_eq_self_iff]
  intro hne
  rw [hs _ (List.getLast_mem hne)]
  decide

theorem pySigned_of_literal {s : List Char} (hs : ∀ c ∈ s, IsLiteralChar c)
    (magnitude : List Char → Option Nat) :
    pySigned magnitude s = (magnitude (unsigned s)).map fun (m : Nat) =>
      if (readSign s).1 then -(m : Int) else m := by
  rw [pySigned, pyStrip_eq_self fun c hc => (hs c hc).not_pyIsSpace,
    List.map_congr_left fun c hc => (hs c hc).toAsciiDigit, List.map_id']
  rfl

theorem dropWhile_isSpace_of_literal {s : List Char} (hs : ∀ c ∈ s, IsLiteralChar c) :
    s.dropWhile isSpace = s := by
  cases s with
  | nil => rfl
  | cons c s =>
      apply List.dropWhile_cons_of_neg
      rw [(hs c List.mem_cons_self).not_isSpace]
      decide

theorem literal_of_unsigned {s : List Char} (h : ∀ c ∈ unsigned s, digitValue c < 36) :
    ∀ c ∈ s, IsLiteralChar c := by
  cases s with
  | nil => exact fun _ hc => absurd hc List.not_mem_nil
  | cons a s =>
      simp only [unsigned, readSign] at h
      intro c hc
      split_ifs at h with hminus hplus
      · rcases List.mem_cons.mp hc with rfl | hc
        · exact .inl hminus
        · exact .inr (.inr (h c hc))
      · rcases List.mem_cons.mp hc with rfl | hc
        · exact .inr (.inl hplus)
        · exact .inr (.inr (h c hc))
      · exact .inr (.inr (h c hc))

theorem IsDecimal.literal {s : List Char} (h : IsDecimal s) : ∀ c ∈ s, IsLiteralChar c :=
  literal_of_unsigned fun c hc => by
    have := h.2 c hc
    omega

theorem IsHex.literal {s : List Char} (h : IsHex s) : ∀ c ∈ s, IsLiteralChar c := by
  apply literal_of_unsigned
  obtain ⟨hmark, hdigits⟩ := h
  generalize unsigned s = m at hmark hdigits ⊢
  unfold hasHexMark at hmark
  split at hmark
  case h_1 z x d m =>
      simp only [Bool.and_eq_true, beq_iff_eq, Bool.or_eq_true, decide_eq_true_eq] at hmark
      obtain ⟨⟨rfl, hx⟩, -⟩ := hmark
      intro c hc
      rcases List.mem_cons.mp hc with rfl | hc
      · decide
      · rcases List.mem_cons.mp hc with rfl | hc
        · rcases hx with rfl | rfl <;> decide
        · have := hdigits c hc
          omega
  case h_2 => cases hmark

/-! ## The same number -/

theorem isDigits_of_digits {b : Nat} (hb : b ≤ 36) {s : List Char}
    (hs : ∀ c ∈ s, digitValue c < b) {afterDigit : Bool} (hne : s = [] → afterDigit = true) :
    isDigits b afterDigit s = true := by
  induction s generalizing afterDigit with
  | nil => exact hne rfl
  | cons c s ih =>
      have hc := hs c List.mem_cons_self
      have hline : c ≠ '_' := by
        rintro rfl
        exact absurd hc (by simp [digitValue]; omega)
      rw [isDigits, if_neg hline, decide_eq_true hc, Bool.true_and]
      exact ih (fun d hd => hs d (List.mem_cons_of_mem c hd)) fun _ => rfl

theorem pyDigits_of_digits {b : Nat} (hb : b ≤ 36) {s : List Char}
    (hs : ∀ c ∈ s, digitValue c < b) (hne : s ≠ []) :
    pyDigits b s = some (readDigits b s) := by
  have hfilter : s.filter (· != '_') = s := by
    rw [List.filter_eq_self]
    intro c hc
    rw [bne_iff_ne]
    rintro rfl
    exact absurd (hs _ hc) (by simp [digitValue]; omega)
  rw [pyDigits, isDigits_of_digits hb hs fun h => absurd h hne, if_pos rfl, hfilter]

theorem markedBase_of_decimal {s : List Char} (hs : ∀ c ∈ s, digitValue c < 10) :
    markedBase s = none := by
  unfold markedBase
  split
  case h_1 z x s =>
      have hx := hs x (by simp)
      have hne : ∀ y : Char, 10 ≤ digitValue y → x ≠ y := by
        rintro y hy rfl
        omega
      simp [hne 'x' (by decide), hne 'X' (by decide), hne 'o' (by decide),
        hne 'O' (by decide), hne 'b' (by decide), hne 'B' (by decide)]
  case h_2 => rfl

theorem le_foldl_digits (b : Nat) (hb : 0 < b) (s : List Char) (a : Nat) :
    a ≤ s.foldl (fun n c => b * n + digitValue c) a := by
  induction s generalizing a with
  | nil => exact le_rfl
  | cons c s ih =>
      have hstep : a ≤ b * a + digitValue c :=
        (Nat.le_mul_of_pos_left a hb).trans (Nat.le_add_right _ _)
      exact hstep.trans (ih _)

/-- The octal digits at the head spell no more than the decimal digits do. -/
theorem octal_le_decimal {s : List Char} (hs : ∀ c ∈ s, digitValue c < 10) :
    readDigits 8 s ≤ readDigits 10 s := by
  have hall : ∀ c ∈ s, decide (digitValue c < 10) = true := fun c hc =>
    decide_eq_true (hs c hc)
  rw [readDigits, readDigits, List.takeWhile_eq_self_iff.mpr hall]
  have hmono : ∀ a b : Nat, a ≤ b →
      (s.takeWhile fun c => decide (digitValue c < 8)).foldl
        (fun n c => 8 * n + digitValue c) a
      ≤ s.foldl (fun n c => 10 * n + digitValue c) b := by
    clear hs hall
    induction s with
    | nil => exact fun a b hab => hab
    | cons c s ih =>
        intro a b hab
        rw [List.takeWhile_cons]
        split_ifs
        · apply ih
          show 8 * a + digitValue c ≤ 10 * b + digitValue c
          omega
        · exact hab.trans (le_foldl_digits 10 (by omega) (c :: s) b)
  exact hmono 0 0 le_rfl

theorem readMagnitude_le {s : List Char} (hs : ∀ c ∈ s, digitValue c < 10) :
    readMagnitude s ≤ readDigits 10 s := by
  rw [readMagnitude_of_decimal hs]
  split_ifs
  · exact octal_le_decimal hs
  · exact le_rfl

theorem strtol_of_literal {s : List Char} (hs : ∀ c ∈ s, IsLiteralChar c)
    (hm : readMagnitude (unsigned s) < 2 ^ 63
      ∨ (readSign s).1 = true ∧ readMagnitude (unsigned s) ≤ 2 ^ 63) :
    strtol s = if (readSign s).1 then -(readMagnitude (unsigned s) : Int)
      else readMagnitude (unsigned s) := by
  rw [strtol, dropWhile_isSpace_of_literal hs]
  show (if (readSign s).1 = true then max (-2 ^ 63) (-(readMagnitude (unsigned s) : Int))
    else min (2 ^ 63 - 1) (readMagnitude (unsigned s) : Int)) = _
  cases hsign : (readSign s).1 with
  | true =>
      have hle : readMagnitude (unsigned s) ≤ 2 ^ 63 := hm.elim Nat.le_of_lt And.right
      rw [if_pos rfl, if_pos rfl, max_eq_right (by omega)]
  | false =>
      have hlt : readMagnitude (unsigned s) < 2 ^ 63 :=
        hm.resolve_right fun h => by rw [hsign] at h; cases h.1
      rw [if_neg (by decide), if_neg (by decide), min_eq_right (by omega)]

theorem strtoul_of_literal {s : List Char} (hs : ∀ c ∈ s, IsLiteralChar c)
    (hm : readMagnitude (unsigned s) < 2 ^ 64) :
    (strtoul s : Int) ≡ if (readSign s).1 then -(readMagnitude (unsigned s) : Int)
      else readMagnitude (unsigned s) [ZMOD 2 ^ 64] := by
  rw [strtoul, dropWhile_isSpace_of_literal hs]
  show ((if 2 ^ 64 ≤ readMagnitude (unsigned s) then 2 ^ 64 - 1
    else if (readSign s).1 = true then (2 ^ 64 - readMagnitude (unsigned s)) % 2 ^ 64
    else readMagnitude (unsigned s) : Nat) : Int) ≡ _ [ZMOD 2 ^ 64]
  rw [if_neg (by omega)]
  split_ifs
  · rw [Int.natCast_mod, Nat.cast_sub hm.le]
    refine (Int.mod_modEq _ _).trans ?_
    rw [Int.modEq_iff_dvd]
    exact ⟨-1, by push_cast; ring⟩
  · rfl

theorem pyInt_decimal {s : List Char} (hs : IsDecimal s) :
    pyInt s = some (if (readSign s).1 then -(readDigits 10 (unsigned s) : Int)
      else readDigits 10 (unsigned s)) := by
  rw [pyInt, pySigned_of_literal hs.literal, pyDigits_of_digits (by omega) hs.2 hs.1]
  rfl

/-- **A decimal number** is one number for both languages exactly if its octal
reading agrees, should it start with the digit 0. -/
theorem strtol_decimal {s : List Char} (hs : IsDecimal s) (hrange : FitsLong s) {n : Nat}
    {v : Int} (hv : pyInt s = some v) : v ≡ strtol s [ZMOD n] ↔ OctalAgrees n s := by
  have hle := readMagnitude_le hs.2
  have hpy := Option.some.inj (hv.symm.trans (pyInt_decimal hs))
  have hrange' : readMagnitude (unsigned s) < 2 ^ 63
      ∨ (readSign s).1 = true ∧ readMagnitude (unsigned s) ≤ 2 ^ 63 := by
    rcases hrange with hrange | ⟨hsign, hrange⟩
    · exact .inl (by omega)
    · exact .inr ⟨hsign, by omega⟩
  have hagree : v ≡ strtol s [ZMOD n] ↔
      readDigits 10 (unsigned s) ≡ readMagnitude (unsigned s) [MOD n] := by
    rw [hpy, strtol_of_literal hs.literal hrange', ← Int.natCast_modEq_iff]
    split_ifs
    · exact Int.neg_modEq_neg
    · rfl
  rw [hagree, readMagnitude_of_decimal hs.2, OctalAgrees]
  split_ifs with hzero
  · exact ⟨fun h _ => h, fun h => h hzero⟩
  · exact ⟨fun _ h => absurd h hzero, fun _ => rfl⟩

/-- **An address** is one number for both: in decimal, Python takes no leading
zero but zero itself. -/
theorem strtoul_decimal {s : List Char} (hs : IsDecimal s)
    (hrange : readDigits 10 (unsigned s) < 2 ^ 64) {v : Int} (hv : pyInt0 s = some v) :
    v ≡ strtoul s [ZMOD 2 ^ 64] := by
  have hle := readMagnitude_le hs.2
  rw [pyInt0, pySigned_of_literal hs.literal, pyLiteral, markedBase_of_decimal hs.2] at hv
  simp only [pyDigits_of_digits (by omega) hs.2 hs.1] at hv
  obtain ⟨m, hm, rfl⟩ := Option.map_eq_some_iff.mp hv
  obtain ⟨hm, hzero⟩ := Option.filter_eq_some_iff.mp hm
  have hm : readDigits 10 (unsigned s) = m := Option.some.inj hm
  have hsame : readMagnitude (unsigned s) = m := by
    by_cases h0 : (unsigned s).head? = some '0'
    · have : m = 0 := by simpa [h0] using hzero
      omega
    · rw [readMagnitude_of_decimal hs.2, if_neg h0, hm]
  have := strtoul_of_literal hs.literal (by omega)
  rw [hsame] at this
  exact this.symm

theorem pyLiteral_hex {m : List Char} (hmark : hasHexMark m = true)
    (hdigits : ∀ c ∈ m.drop 2, digitValue c < 16) :
    pyLiteral m = some (readMagnitude m) := by
  rw [readMagnitude, if_pos hmark]
  unfold hasHexMark at hmark
  split at hmark
  case h_1 z x d m =>
      simp only [Bool.and_eq_true, beq_iff_eq, Bool.or_eq_true, decide_eq_true_eq] at hmark
      obtain ⟨⟨rfl, hx⟩, hd⟩ := hmark
      have hbase : markedBase ('0' :: x :: d :: m) = some 16 := by
        simp [markedBase, hx]
      have hline : d ≠ '_' := by
        rintro rfl
        exact absurd hd (by decide)
      rw [pyLiteral, hbase]
      simp only [List.drop_succ_cons, List.drop_zero, List.head?_cons, Option.some.injEq,
        hline, if_false]
      exact pyDigits_of_digits (by omega) hdigits (by simp)
  case h_2 => cases hmark

/-- **A hexadecimal number** is one number for both. -/
theorem strtoul_hex {s : List Char} (hs : IsHex s)
    (hrange : readMagnitude (unsigned s) < 2 ^ 64) {v : Int} (hv : pyInt0 s = some v) :
    v ≡ strtoul s [ZMOD 2 ^ 64] := by
  rw [pyInt0, pySigned_of_literal hs.literal, pyLiteral_hex hs.1 hs.2, Option.map_some,
    Option.some_inj] at hv
  have := strtoul_of_literal hs.literal hrange
  rw [← hv]
  exact this.symm

end EclipseNpu.Lib
