import Mathlib.Data.List.DropRight
import Mathlib.Tactic.IntervalCases

/-!
# Lib — Text

Text as a list of characters: numbers in the notation of the C library
(`strtoul`, `strtol` with base 0), words between separators (`words`), and
lines read into a buffer of fixed size (`fgetsLines`). For each, reading back
what was written gives what was written.
-/

namespace EclipseNpu.Lib

/-! ## Digits -/

/-- The value of a digit in any base up to 36; 36 for every other character. -/
def digitValue (c : Char) : Nat :=
  if 48 ≤ c.toNat ∧ c.toNat ≤ 57 then c.toNat - 48
  else if 97 ≤ c.toNat ∧ c.toNat ≤ 122 then c.toNat - 87
  else if 65 ≤ c.toNat ∧ c.toNat ≤ 90 then c.toNat - 55
  else 36

/-- What the digits at the head of `s` spell in base `b`. -/
def readDigits (b : Nat) (s : List Char) : Nat :=
  (s.takeWhile fun c => decide (digitValue c < b)).foldl
    (fun n c => b * n + digitValue c) 0

section Digits

variable {b n : Nat}

theorem digitValue_digitChar {d : Nat} (hd : d < 16) :
    digitValue (Nat.digitChar d) = d := by
  interval_cases d <;> rfl

theorem digitValue_of_mem_toDigits (hb : 1 < b) (hb' : b ≤ 16) {c : Char}
    (hc : c ∈ Nat.toDigits b n) : digitValue c < b := by
  induction n using Nat.base_induction b hb with
  | single m hm =>
      rw [Nat.toDigits_of_lt_base hm, List.mem_singleton] at hc
      rw [hc, digitValue_digitChar (by omega)]
      exact hm
  | digit m k hk hm ih =>
      rw [← Nat.toDigits_append_toDigits hb hm hk, List.mem_append] at hc
      rcases hc with hc | hc
      · exact ih hc
      · rw [Nat.toDigits_of_lt_base hk, List.mem_singleton] at hc
        rw [hc, digitValue_digitChar (by omega)]
        exact hk

theorem foldl_toDigits (hb : 1 < b) (hb' : b ≤ 16) (n : Nat) :
    (Nat.toDigits b n).foldl (fun n c => b * n + digitValue c) 0 = n := by
  induction n using Nat.base_induction b hb with
  | single m hm =>
      rw [Nat.toDigits_of_lt_base hm, List.foldl_cons, List.foldl_nil,
        digitValue_digitChar (by omega), Nat.mul_zero, Nat.zero_add]
  | digit m k hk hm ih =>
      rw [← Nat.toDigits_append_toDigits hb hm hk, List.foldl_append, ih,
        Nat.toDigits_of_lt_base hk, List.foldl_cons, List.foldl_nil,
        digitValue_digitChar (by omega)]

/-- **Digits are read back.** -/
theorem readDigits_toDigits (hb : 1 < b) (hb' : b ≤ 16) (n : Nat) :
    readDigits b (Nat.toDigits b n) = n := by
  have hall : ∀ c ∈ Nat.toDigits b n, decide (digitValue c < b) = true := by
    intro c hc
    exact decide_eq_true (digitValue_of_mem_toDigits hb hb' hc)
  rw [readDigits, List.takeWhile_eq_self_iff.mpr hall, foldl_toDigits hb hb']

/-- Only the number 0 starts with the digit 0. -/
theorem head_toDigits (hb : 1 < b) (hn : 0 < n) :
    (Nat.toDigits b n).head? ≠ some '0' := by
  induction n using Nat.base_induction b hb with
  | single m hm =>
      rw [Nat.toDigits_of_lt_base hm, List.head?_cons, Ne, Option.some_inj,
        Nat.digitChar_eq_zero]
      omega
  | digit m k hk hm ih =>
      rw [← Nat.toDigits_append_toDigits hb hm hk, List.head?_append]
      intro h
      cases hd : (Nat.toDigits b m).head? with
      | none => exact absurd (List.head?_eq_none_iff.mp hd) Nat.toDigits_ne_nil
      | some c =>
          rw [hd] at h
          exact ih hm (hd.trans h)

end Digits

/-! ## `strtoul` and `strtol`

`long` has 64 bits; base 0 takes the base from the text. -/

/-- `isspace`. -/
def isSpace (c : Char) : Bool :=
  decide (c.toNat = 32 ∨ (9 ≤ c.toNat ∧ c.toNat ≤ 13))

/-- `0x` or `0X` before a hexadecimal digit. -/
def hasHexMark : List Char → Bool
  | z :: x :: d :: _ => z == '0' && (x == 'x' || x == 'X') && digitValue d < 16
  | _ => false

/-- The number after the sign. -/
def readMagnitude (s : List Char) : Nat :=
  if hasHexMark s then readDigits 16 (s.drop 2)
  else if s.head? = some '0' then readDigits 8 s
  else readDigits 10 s

/-- An optional sign. -/
def readSign : List Char → Bool × List Char
  | [] => (false, [])
  | c :: s => if c = '-' then (true, s) else if c = '+' then (false, s) else (false, c :: s)

/-- Out of range is `ULONG_MAX`; a minus sign negates modulo `2 ^ 64`. -/
def strtoul (s : List Char) : Nat :=
  let (negative, s) := readSign (s.dropWhile isSpace)
  let m := readMagnitude s
  if 2 ^ 64 ≤ m then 2 ^ 64 - 1
  else if negative then (2 ^ 64 - m) % 2 ^ 64
  else m

/-- Out of range is `LONG_MIN` or `LONG_MAX`. -/
def strtol (s : List Char) : Int :=
  let (negative, s) := readSign (s.dropWhile isSpace)
  let m := readMagnitude s
  if negative then max (-2 ^ 63) (-m) else min (2 ^ 63 - 1) m

/-- A number in hexadecimal, with its mark. -/
def hexText (n : Nat) : List Char := '0' :: 'x' :: Nat.toDigits 16 n

def decimalText (n : Nat) : List Char := Nat.toDigits 10 n

theorem readMagnitude_hexText (n : Nat) : readMagnitude (hexText n) = n := by
  have hmark : hasHexMark (hexText n) = true := by
    unfold hexText hasHexMark
    cases h : Nat.toDigits 16 n with
    | nil => exact absurd h Nat.toDigits_ne_nil
    | cons c s =>
        have hc : digitValue c < 16 :=
          digitValue_of_mem_toDigits (n := n) (by omega) (by omega) (by simp [h])
        simp [hc]
  rw [readMagnitude, if_pos hmark]
  exact readDigits_toDigits (by omega) (by omega) n

/-- `x` is no decimal digit. -/
theorem hasHexMark_of_decimal {s : List Char} (hs : ∀ c ∈ s, digitValue c < 10) :
    hasHexMark s = false := by
  unfold hasHexMark
  split
  case h_1 z x d s =>
      have hx := hs x (by simp)
      have hne : x ≠ 'x' ∧ x ≠ 'X' := by
        constructor
        · rintro rfl
          exact absurd hx (by decide)
        · rintro rfl
          exact absurd hx (by decide)
      simp [hne.1, hne.2]
  case h_2 => rfl

theorem readMagnitude_of_decimal {s : List Char} (hs : ∀ c ∈ s, digitValue c < 10) :
    readMagnitude s
      = if s.head? = some '0' then readDigits 8 s else readDigits 10 s := by
  rw [readMagnitude, hasHexMark_of_decimal hs, if_neg (by decide)]

theorem readMagnitude_decimalText (n : Nat) : readMagnitude (decimalText n) = n := by
  have hdigit : ∀ c ∈ decimalText n, digitValue c < 10 := fun c hc =>
    digitValue_of_mem_toDigits (by omega) (by omega) hc
  rw [readMagnitude_of_decimal hdigit]
  cases n with
  | zero => decide
  | succ n =>
      have hhead : (decimalText (n + 1)).head? ≠ some '0' :=
        head_toDigits (by omega) (by omega)
      rw [if_neg hhead]
      exact readDigits_toDigits (by omega) (by omega) (n + 1)

theorem isSpace_of_digit {c : Char} (hc : digitValue c < 36) : isSpace c = false := by
  unfold digitValue at hc
  rw [isSpace, decide_eq_false_iff_not]
  split_ifs at hc
  · omega
  · omega
  · omega
  · omega

/-- Text that starts with a digit has no blanks and no sign before it. -/
theorem readSign_of_digit {c : Char} {s : List Char} (hc : digitValue c < 36) :
    readSign ((c :: s).dropWhile isSpace) = (false, c :: s) := by
  rw [List.dropWhile_cons, isSpace_of_digit hc, if_neg (by decide), readSign, if_neg,
    if_neg]
  · rintro rfl
    exact absurd hc (by decide)
  · rintro rfl
    exact absurd hc (by decide)

theorem readSign_decimalText (n : Nat) :
    readSign ((decimalText n).dropWhile isSpace) = (false, decimalText n) := by
  cases h : decimalText n with
  | nil => exact absurd h Nat.toDigits_ne_nil
  | cons c s =>
      apply readSign_of_digit
      have hc : digitValue c < 10 :=
        digitValue_of_mem_toDigits (n := n) (by omega) (by omega) (by
          show c ∈ decimalText n
          simp [h])
      omega

/-- **`strtoul` reads a hexadecimal number back.** -/
theorem strtoul_hexText {n : Nat} (hn : n < 2 ^ 64) : strtoul (hexText n) = n := by
  have hsign : readSign ((hexText n).dropWhile isSpace) = (false, hexText n) :=
    readSign_of_digit (by decide)
  rw [strtoul, hsign]
  simp only [readMagnitude_hexText]
  rw [if_neg (by omega), if_neg (by decide)]

/-- **`strtol` reads a decimal number back.** -/
theorem strtol_decimalText {n : Nat} (hn : n < 2 ^ 63) :
    strtol (decimalText n) = n := by
  rw [strtol, readSign_decimalText]
  simp only [readMagnitude_decimalText]
  rw [if_neg (by decide), min_eq_right (by omega)]

/-! ## Characters of a number -/

theorem digitValue_of_mem_hexText {n : Nat} {c : Char} (hc : c ∈ hexText n) :
    digitValue c < 36 := by
  rw [hexText, List.mem_cons, List.mem_cons] at hc
  rcases hc with rfl | rfl | hc
  · decide
  · decide
  · have := digitValue_of_mem_toDigits (by omega) (by omega) hc
    omega

theorem digitValue_of_mem_decimalText {n : Nat} {c : Char} (hc : c ∈ decimalText n) :
    digitValue c < 36 := by
  have := digitValue_of_mem_toDigits (by omega) (by omega) hc
  omega

/-! ## Words -/

section Words

variable {α : Type*} (sep : α → Bool)

/-- The words of `s` between separators, the first one continuing `word`. -/
def wordsFrom (word : List α) : List α → List (List α)
  | [] => if word = [] then [] else [word]
  | c :: s =>
      if sep c then (if word = [] then wordsFrom [] s else word :: wordsFrom [] s)
      else wordsFrom (word ++ [c]) s

variable {sep}

theorem wordsFrom_sep_nil {c : α} (hc : sep c = true) (s : List α) :
    wordsFrom sep [] (c :: s) = wordsFrom sep [] s := by
  rw [wordsFrom, if_pos hc, if_pos rfl]

theorem wordsFrom_sep_cons {c : α} (hc : sep c = true) {word : List α}
    (hword : word ≠ []) (s : List α) :
    wordsFrom sep word (c :: s) = word :: wordsFrom sep [] s := by
  rw [wordsFrom, if_pos hc, if_neg hword]

theorem wordsFrom_append {w : List α} (hw : ∀ c ∈ w, sep c = false) (word s : List α) :
    wordsFrom sep word (w ++ s) = wordsFrom sep (word ++ w) s := by
  induction w generalizing word with
  | nil => rw [List.nil_append, List.append_nil]
  | cons c w ih =>
      have hc : ¬ sep c = true := by
        rw [hw c (by simp)]
        decide
      rw [List.cons_append, wordsFrom, if_neg hc, ih fun d hd => hw d (by simp [hd])]
      simp

theorem wordsFrom_seps {b : List α} (hb : ∀ c ∈ b, sep c = true) (s : List α) :
    wordsFrom sep [] (b ++ s) = wordsFrom sep [] s := by
  induction b with
  | nil => rfl
  | cons c b ih =>
      rw [List.cons_append, wordsFrom_sep_nil (hb c (by simp)),
        ih fun d hd => hb d (by simp [hd])]

/-- A word without separators, and something to read. -/
def IsWord (sep : α → Bool) (w : List α) : Prop := w ≠ [] ∧ ∀ c ∈ w, sep c = false

/-- Words behind an open one, each after one separator. -/
theorem wordsFrom_spaced {b : α} (hb : sep b = true) {ws : List (List α)}
    (hws : ∀ w ∈ ws, IsWord sep w) {word : List α} (hword : word ≠ []) :
    wordsFrom sep word (ws.flatMap (b :: ·)) = word :: ws := by
  induction ws generalizing word with
  | nil => exact if_neg hword
  | cons w ws ih =>
      obtain ⟨hne, hw⟩ := hws w (by simp)
      rw [List.flatMap_cons, List.cons_append, wordsFrom_sep_cons hb hword,
        wordsFrom_append hw, List.nil_append, ih (fun v hv => hws v (by simp [hv])) hne]

/-- **Words are read back**: a first word, padded, and more words. -/
theorem wordsFrom_padded {w pad : List α} {b : α} {ws : List (List α)}
    (hw : IsWord sep w) (hpad : ∀ c ∈ pad, sep c = true) (hb : sep b = true)
    (hws : ∀ v ∈ ws, IsWord sep v) :
    wordsFrom sep [] (w ++ pad ++ ws.flatMap (b :: ·)) = w :: ws := by
  rw [List.append_assoc, wordsFrom_append hw.2, List.nil_append]
  cases pad with
  | nil => exact wordsFrom_spaced hb hws hw.1
  | cons c pad =>
      rw [List.cons_append, wordsFrom_sep_cons (hpad c (by simp)) hw.1,
        wordsFrom_seps fun d hd => hpad d (by simp [hd])]
      cases ws with
      | nil => rfl
      | cons v ws =>
          obtain ⟨hne, hv⟩ := hws v (by simp)
          rw [List.flatMap_cons, List.cons_append, wordsFrom_sep_nil hb,
            wordsFrom_append hv, List.nil_append,
            wordsFrom_spaced hb (fun u hu => hws u (by simp [hu])) hne]

/-- A separator ends the words before it. -/
theorem wordsFrom_append_sep {c : α} (hc : sep c = true) (word l s : List α) :
    wordsFrom sep word (l ++ c :: s) = wordsFrom sep word l ++ wordsFrom sep [] s := by
  induction l generalizing word with
  | nil =>
      rw [List.nil_append]
      by_cases hword : word = []
      · rw [hword, wordsFrom_sep_nil hc]
        rfl
      · rw [wordsFrom_sep_cons hc hword, wordsFrom, if_neg hword]
        rfl
  | cons d l ih =>
      rw [List.cons_append, wordsFrom, wordsFrom]
      split_ifs
      · exact ih []
      · rw [ih [], List.cons_append]
      · exact ih (word ++ [d])

theorem wordsFrom_append_seps {t : List α} (ht : ∀ c ∈ t, sep c = true) (word l : List α) :
    wordsFrom sep word (l ++ t) = wordsFrom sep word l := by
  cases t with
  | nil => rw [List.append_nil]
  | cons c t =>
      have hrest : wordsFrom sep [] (t ++ []) = [] :=
        wordsFrom_seps (fun d hd => ht d (List.mem_cons_of_mem c hd)) []
      rw [List.append_nil] at hrest
      rw [wordsFrom_append_sep (ht c List.mem_cons_self), hrest, List.append_nil]

/-- The first word is what stands before the first separator. -/
theorem wordsFrom_open {word : List α} (hword : word ≠ []) (s : List α) :
    wordsFrom sep word s = (word ++ s.takeWhile fun c => !sep c)
      :: wordsFrom sep [] (s.dropWhile fun c => !sep c) := by
  induction s generalizing word with
  | nil =>
      rw [wordsFrom, if_neg hword, List.takeWhile_nil, List.append_nil]
      rfl
  | cons c s ih =>
      cases hc : sep c with
      | true =>
          rw [wordsFrom_sep_cons hc hword, List.takeWhile_cons_of_neg (by simp [hc]),
            List.dropWhile_cons_of_neg (by simp [hc]), wordsFrom_sep_nil hc, List.append_nil]
      | false =>
          have hstep : wordsFrom sep word (c :: s) = wordsFrom sep (word ++ [c]) s := by
            rw [wordsFrom, hc]
            rfl
          rw [hstep, ih (by simp), List.takeWhile_cons_of_pos (by simp [hc]),
            List.dropWhile_cons_of_pos (by simp [hc]), List.append_assoc]
          rfl

theorem wordsFrom_length_le {word : List α} (hword : word ≠ []) (s : List α) :
    ∃ w ∈ wordsFrom sep word s, word.length ≤ w.length := by
  rw [wordsFrom_open hword]
  exact ⟨_, List.mem_cons_self, by simp⟩

theorem wordsFrom_eq_nil {s : List α} :
    wordsFrom sep [] s = [] ↔ ∀ c ∈ s, sep c = true := by
  constructor
  · intro h
    induction s with
    | nil => exact fun c hc => absurd hc List.not_mem_nil
    | cons c s ih =>
        cases hc : sep c with
        | true =>
            rw [wordsFrom_sep_nil hc] at h
            intro d hd
            rcases List.mem_cons.mp hd with rfl | hd
            · exact hc
            · exact ih h d hd
        | false =>
            rw [wordsFrom, hc, if_neg (by decide), wordsFrom_open (by simp)] at h
            cases h
  · intro h
    rw [← List.append_nil s]
    exact wordsFrom_seps h []

/-- Splitting at some of the separators first changes nothing. -/
theorem wordsFrom_flatMap {sep' : α → Bool} (h : ∀ c, sep c = true → sep' c = true)
    (word s : List α) :
    (wordsFrom sep word s).flatMap (wordsFrom sep' []) = wordsFrom sep' [] (word ++ s) := by
  induction s generalizing word with
  | nil =>
      rw [List.append_nil, wordsFrom]
      split_ifs with hword
      · rw [hword]
        rfl
      · rw [List.flatMap_singleton]
  | cons c s ih =>
      rw [wordsFrom]
      split_ifs with hc hword
      · rw [ih, hword, List.nil_append, List.nil_append, wordsFrom_sep_nil (h c hc)]
      · rw [List.flatMap_cons, ih, List.nil_append, wordsFrom_append_sep (h c hc)]
      · rw [ih, List.append_assoc, List.singleton_append]

/-- Words are words. -/
theorem isWord_of_mem {word s w : List α} (hword : ∀ c ∈ word, sep c = false)
    (hw : w ∈ wordsFrom sep word s) : IsWord sep w := by
  induction s generalizing word with
  | nil =>
      rw [wordsFrom] at hw
      split_ifs at hw with hne
      · cases hw
      · rw [List.mem_singleton] at hw
        exact hw ▸ ⟨hne, hword⟩
  | cons c s ih =>
      rw [wordsFrom] at hw
      split_ifs at hw with hc hne
      · exact ih (by simp) hw
      · rcases List.mem_cons.mp hw with rfl | hw
        · exact ⟨hne, hword⟩
        · exact ih (by simp) hw
      · refine ih (fun d hd => ?_) hw
        rcases List.mem_append.mp hd with hd | hd
        · exact hword d hd
        · rw [List.mem_singleton.mp hd]
          simpa using hc

end Words

/-! ## Lines -/

/-- The successive results of `fgets` with a buffer of `size` characters:
each ends with a newline, or fills the buffer (one character is the end mark),
or is the last. -/
def fgetsLines (size : Nat) (line : List Char) : List Char → List (List Char)
  | [] => if line = [] then [] else [line]
  | c :: s =>
      if c = '\n' ∨ line.length + 2 = size then (line ++ [c]) :: fgetsLines size [] s
      else fgetsLines size (line ++ [c]) s

/-- The lines have no other characters than the text. -/
theorem mem_of_fgetsLines {size : Nat} {c : Char} {line s l : List Char}
    (hl : l ∈ fgetsLines size line s) (hc : c ∈ l) : c ∈ line ∨ c ∈ s := by
  induction s generalizing line with
  | nil =>
      rw [fgetsLines] at hl
      split_ifs at hl
      · cases hl
      · rw [List.mem_singleton] at hl
        exact .inl (hl ▸ hc)
  | cons d s ih =>
      rw [fgetsLines] at hl
      have hopen : c ∈ line ++ [d] → c ∈ line ∨ c ∈ d :: s := by
        intro h
        rcases List.mem_append.mp h with h | h
        · exact .inl h
        · exact .inr (List.mem_singleton.mp h ▸ List.mem_cons_self)
      split_ifs at hl
      · rcases List.mem_cons.mp hl with rfl | hl
        · exact hopen hc
        · rcases ih hl with h | h
          · cases h
          · exact .inr (List.mem_cons_of_mem d h)
      · rcases ih hl with h | h
        · exact hopen h
        · exact .inr (List.mem_cons_of_mem d h)

theorem fgetsLines_append {size : Nat} {line body s : List Char}
    (hbody : '\n' ∉ body) (hlen : line.length + body.length + 2 ≤ size) :
    fgetsLines size line (body ++ '\n' :: s)
      = (line ++ body ++ ['\n']) :: fgetsLines size [] s := by
  induction body generalizing line with
  | nil =>
      rw [List.nil_append, fgetsLines, if_pos (.inl rfl), List.append_nil]
  | cons c body ih =>
      rw [List.length_cons] at hlen
      have hc : c ≠ '\n' := fun h => hbody (by simp [h])
      rw [List.cons_append, fgetsLines, if_neg, ih (fun h => hbody (by simp [h])) ?_]
      · simp
      · rw [List.length_append]
        simp only [List.length_cons, List.length_nil]
        omega
      · rintro (h | h)
        · exact hc h
        · omega

/-- **Lines that fit the buffer are the words between newlines**, for a reader
that ignores the newline and skips empty lines. -/
theorem fgetsLines_filterMap {β : Type*} {f : List Char → Option β}
    (hnewline : ∀ line, f (line ++ ['\n']) = f line) (hnil : f [] = none) {size : Nat}
    {line s : List Char}
    (hlen : ∀ w ∈ wordsFrom (· == '\n') line s, w.length < size) :
    (fgetsLines size line s).filterMap f
      = (wordsFrom (· == '\n') line s).filterMap f := by
  induction s generalizing line with
  | nil => rfl
  | cons c s ih =>
      by_cases hc : c = '\n'
      · subst hc
        rw [fgetsLines, if_pos (.inl rfl), List.filterMap_cons, hnewline]
        by_cases hline : line = []
        · subst hline
          rw [wordsFrom_sep_nil (by decide)] at hlen ⊢
          rw [hnil, ih hlen]
        · rw [wordsFrom_sep_cons (by decide) hline] at hlen ⊢
          rw [List.filterMap_cons, ih fun w hw => hlen w (List.mem_cons_of_mem line hw)]
      · have hstep : wordsFrom (· == '\n') line (c :: s)
            = wordsFrom (· == '\n') (line ++ [c]) s := by
          rw [wordsFrom, if_neg (by simpa using hc)]
        rw [hstep] at hlen ⊢
        by_cases hfull : line.length + 2 = size
        · -- the buffer is full, so the line ends here
          have hend : wordsFrom (· == '\n') (line ++ [c]) s
              = (line ++ [c]) :: wordsFrom (· == '\n') [] s := by
            cases s with
            | nil => exact if_neg (by simp)
            | cons d s =>
                by_cases hd : d = '\n'
                · subst hd
                  rw [wordsFrom_sep_cons (by decide) (by simp), wordsFrom_sep_nil (by decide)]
                · have hstep' : wordsFrom (· == '\n') (line ++ [c]) (d :: s)
                      = wordsFrom (· == '\n') (line ++ [c] ++ [d]) s := by
                    rw [wordsFrom, if_neg (by simpa using hd)]
                  rw [hstep'] at hlen
                  obtain ⟨w, hw, hle⟩ : ∃ w ∈ wordsFrom (· == '\n') (line ++ [c] ++ [d]) s,
                      (line ++ [c] ++ [d]).length ≤ w.length :=
                    wordsFrom_length_le (by simp) s
                  have := hlen w hw
                  rw [List.length_append, List.length_append] at hle
                  simp only [List.length_singleton] at hle
                  omega
          rw [fgetsLines, if_pos (.inr hfull), hend, List.filterMap_cons, List.filterMap_cons]
          rw [hend] at hlen
          rw [ih fun w hw => hlen w (List.mem_cons_of_mem _ hw)]
        · rw [fgetsLines, if_neg (not_or.mpr ⟨hc, hfull⟩), ih hlen]

/-- **Lines that fit the buffer are read back.** -/
theorem fgetsLines_flatMap {size : Nat} {bodies : List (List Char)}
    (h : ∀ body ∈ bodies, '\n' ∉ body ∧ body.length + 2 ≤ size) :
    fgetsLines size [] (bodies.flatMap (· ++ ['\n'])) = bodies.map (· ++ ['\n']) := by
  induction bodies with
  | nil => rfl
  | cons body bodies ih =>
      obtain ⟨hbody, hlen⟩ := h body (by simp)
      rw [List.flatMap_cons, List.append_assoc, List.singleton_append,
        fgetsLines_append hbody (by simpa using hlen), List.nil_append,
        ih fun b hb => h b (by simp [hb]), List.map_cons]

end EclipseNpu.Lib
