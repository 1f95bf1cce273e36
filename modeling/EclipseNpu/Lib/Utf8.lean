import EclipseNpu.Lib.Text

/-!
# Lib — Utf8

A text as its bytes, one character per byte, the way a C program sees it. The
ASCII characters stand for themselves and occur in no other character's bytes,
so splitting a text at ASCII separators commutes with encoding it
(`wordsFrom_utf8`).
-/

namespace EclipseNpu.Lib

/-- The bytes of one character. -/
def utf8Char (c : Char) : List Char :=
  (String.utf8EncodeChar c).map fun b => Char.ofNat b.toNat

/-- The bytes of a text. -/
def utf8Text (s : List Char) : List Char := s.flatMap utf8Char

/-! ## One character -/

theorem utf8Char_ascii {c : Char} (hc : c.toNat < 128) : utf8Char c = [c] := by
  have hv : c.val.toNat ≤ 0x7f := by
    have : c.val.toNat < 128 := hc
    omega
  have henc : String.utf8EncodeChar c = [UInt8.ofNat c.val.toNat] := if_pos hv
  rw [utf8Char, henc, List.map_singleton, UInt8.toNat_ofNat_of_lt' (by
    have := UInt8.size
    change _ < 256
    omega)]
  exact congrArg (· :: []) (Char.ofNat_toNat c)

theorem toNat_ofNat_byte (b : UInt8) : (Char.ofNat b.toNat).toNat = b.toNat := by
  have hb := b.toNat_lt
  have hvalid : b.toNat.isValidChar := .inl (by omega)
  rw [Char.ofNat, dif_pos hvalid]
  rfl

/-- The bytes of every other character are no ASCII characters. -/
theorem utf8Char_wide {c b : Char} (hc : 128 ≤ c.toNat) (hb : b ∈ utf8Char c) :
    128 ≤ b.toNat := by
  obtain ⟨byte, hbyte, rfl⟩ := List.mem_map.mp hb
  rw [toNat_ofNat_byte]
  have hv : ¬ c.val.toNat ≤ 0x7f := by
    have : 128 ≤ c.val.toNat := hc
    omega
  unfold String.utf8EncodeChar at hbyte
  rw [if_neg hv] at hbyte
  -- two, three or four bytes
  split at hbyte
  · simp only [List.mem_cons, List.not_mem_nil, or_false] at hbyte
    rcases hbyte with rfl | rfl <;> (rw [UInt8.toNat_ofNat']; omega)
  · split at hbyte
    · simp only [List.mem_cons, List.not_mem_nil, or_false] at hbyte
      rcases hbyte with rfl | rfl | rfl <;> (rw [UInt8.toNat_ofNat']; omega)
    · simp only [List.mem_cons, List.not_mem_nil, or_false] at hbyte
      rcases hbyte with rfl | rfl | rfl | rfl <;> (rw [UInt8.toNat_ofNat']; omega)

theorem utf8Char_ne_nil (c : Char) : utf8Char c ≠ [] := by
  rw [utf8Char, Ne, List.map_eq_nil_iff]
  exact String.utf8EncodeChar_ne_nil

/-- An ASCII character is a byte of itself only. -/
theorem mem_utf8Char {a c : Char} (ha : a.toNat < 128) : a ∈ utf8Char c ↔ a = c := by
  by_cases hc : c.toNat < 128
  · rw [utf8Char_ascii hc, List.mem_singleton]
  · constructor
    · intro h
      have := utf8Char_wide (Nat.le_of_not_lt hc) h
      omega
    · rintro rfl
      exact absurd ha hc

/-! ## A text -/

theorem utf8Text_append (s t : List Char) : utf8Text (s ++ t) = utf8Text s ++ utf8Text t :=
  List.flatMap_append

theorem utf8Text_cons (c : Char) (s : List Char) :
    utf8Text (c :: s) = utf8Char c ++ utf8Text s := List.flatMap_cons

theorem utf8Text_singleton (c : Char) : utf8Text [c] = utf8Char c := by
  rw [utf8Text_cons]
  exact List.append_nil _

theorem utf8Text_ascii {s : List Char} (hs : ∀ c ∈ s, c.toNat < 128) : utf8Text s = s := by
  induction s with
  | nil => rfl
  | cons c s ih =>
      rw [utf8Text_cons, utf8Char_ascii (hs c List.mem_cons_self),
        ih fun d hd => hs d (List.mem_cons_of_mem c hd)]
      rfl

theorem mem_utf8Text {a : Char} (ha : a.toNat < 128) {s : List Char} :
    a ∈ utf8Text s ↔ a ∈ s := by
  induction s with
  | nil => simp [utf8Text]
  | cons c s ih => rw [utf8Text_cons, List.mem_append, mem_utf8Char ha, ih, List.mem_cons]

theorem utf8Text_eq_nil {s : List Char} : utf8Text s = [] ↔ s = [] := by
  cases s with
  | nil => simp [utf8Text]
  | cons c s =>
      rw [utf8Text_cons, List.append_eq_nil_iff]
      simp [utf8Char_ne_nil]

/-- An ASCII text is the bytes of itself only. -/
theorem utf8Text_eq_ascii {s t : List Char} (ht : ∀ c ∈ t, c.toNat < 128) :
    utf8Text s = t ↔ s = t := by
  constructor
  · rintro rfl
    refine (utf8Text_ascii fun c hc => ?_).symm
    by_contra hwide
    obtain ⟨b, hb⟩ := List.exists_mem_of_ne_nil _ (utf8Char_ne_nil c)
    have hmem : b ∈ utf8Text s := List.mem_flatMap.mpr ⟨c, hc, hb⟩
    have := utf8Char_wide (Nat.le_of_not_lt hwide) hb
    have := ht b hmem
    omega
  · rintro rfl
    exact utf8Text_ascii ht

section Split

variable {a : Char}

theorem ne_of_mem_utf8Char (ha : a.toNat < 128) {c : Char} (hc : c ≠ a) :
    ∀ b ∈ utf8Char c, (b != a) = true := by
  intro b hb
  rw [bne_iff_ne]
  rintro rfl
  exact hc ((mem_utf8Char ha).mp hb).symm

/-- The part before an ASCII character. -/
theorem takeWhile_utf8Text (ha : a.toNat < 128) (s : List Char) :
    (utf8Text s).takeWhile (· != a) = utf8Text (s.takeWhile (· != a)) := by
  induction s with
  | nil => rfl
  | cons c s ih =>
      rw [utf8Text_cons]
      by_cases hc : c = a
      · rw [hc, utf8Char_ascii ha]
        simp [utf8Text]
      · rw [List.takeWhile_append_of_pos (ne_of_mem_utf8Char ha hc), ih,
          List.takeWhile_cons_of_pos (by simpa using hc), utf8Text_cons]

/-- The part from an ASCII character on. -/
theorem dropWhile_utf8Text (ha : a.toNat < 128) (s : List Char) :
    (utf8Text s).dropWhile (· != a) = utf8Text (s.dropWhile (· != a)) := by
  induction s with
  | nil => rfl
  | cons c s ih =>
      by_cases hc : c = a
      · rw [utf8Text_cons, hc, utf8Char_ascii ha, List.dropWhile_cons_of_neg (by simp),
          utf8Text_cons, utf8Char_ascii ha]
        simp
      · rw [utf8Text_cons, List.dropWhile_append_of_pos (ne_of_mem_utf8Char ha hc), ih,
          List.dropWhile_cons_of_pos (by simpa using hc)]

end Split

/-- **Words of bytes are bytes of words**, when no byte of a character that is
no separator is one. -/
theorem wordsFrom_utf8 {sep sep' : Char → Bool} {s : List Char}
    (hsep : ∀ c ∈ s, sep c = true → utf8Char c = [c] ∧ sep' c = true)
    (hword : ∀ c ∈ s, sep c = false → ∀ b ∈ utf8Char c, sep' b = false) (word : List Char) :
    wordsFrom sep' (utf8Text word) (utf8Text s) = (wordsFrom sep word s).map utf8Text := by
  induction s generalizing word with
  | nil =>
      by_cases hw : word = []
      · subst hw
        rfl
      · have hw' : utf8Text word ≠ [] := fun h => hw (utf8Text_eq_nil.mp h)
        simp only [utf8Text, List.flatMap_nil, wordsFrom] at hw' ⊢
        rw [if_neg hw', if_neg hw]
        rfl
  | cons c s ih =>
      have ih' := ih (fun d hd => hsep d (List.mem_cons_of_mem c hd))
        fun d hd => hword d (List.mem_cons_of_mem c hd)
      rw [utf8Text_cons]
      cases hc : sep c with
      | true =>
          obtain ⟨hself, hc'⟩ := hsep c List.mem_cons_self hc
          rw [hself, List.singleton_append]
          by_cases hw : word = []
          · subst hw
            have := ih' []
            exact (wordsFrom_sep_nil hc' _).trans (this.trans
              (congrArg _ (wordsFrom_sep_nil hc s).symm))
          · have hw' : utf8Text word ≠ [] := fun h => hw (utf8Text_eq_nil.mp h)
            rw [wordsFrom_sep_cons hc' hw', wordsFrom_sep_cons hc hw, List.map_cons]
            exact congrArg _ (ih' [])
      | false =>
          rw [wordsFrom_append (hword c List.mem_cons_self hc)]
          have hone : utf8Text word ++ utf8Char c = utf8Text (word ++ [c]) := by
            rw [utf8Text_append, utf8Text_singleton]
          have hstep : wordsFrom sep word (c :: s) = wordsFrom sep (word ++ [c]) s := by
            rw [wordsFrom, hc]
            rfl
          rw [hone, ih', hstep]

end EclipseNpu.Lib
