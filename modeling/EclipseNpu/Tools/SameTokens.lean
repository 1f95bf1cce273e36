import EclipseNpu.Lib.Utf8
import EclipseNpu.Tools.HazardParse

/-!
# Tools — SameTokens

The tokens that the checker and `eclipse-run` find in a file (`checkerLines`,
`runnerLines`), and the opcode and fields they make of them (`insnOf`). The
tokens are the same as long as every line fits the runner's buffer and has no
other whitespace than blanks (`PlainLine`), except that the runner has no
comments.
-/

namespace EclipseNpu.Tools

open EclipseNpu.Lib EclipseNpu.Runtime

/-! ## The tokens of a file -/

/-- The value of the last token `key=value`. -/
def lastValue (key : List Char) (tokens : List (List Char)) : Option (List Char) :=
  tokens.reverse.findSome? fun tok =>
    if '=' ∈ tok ∧ tok.takeWhile (· != '=') = key then some (tok.dropWhile (· != '=')).tail
    else none

/-- The first token is the opcode, the others are fields. -/
def insnOf : List (List Char) → Insn
  | [] => ⟨[], fun _ => none⟩
  | op :: parts => ⟨op, fun key => lastValue key parts⟩

/-- The checker's token lists: the lines of a text file that are not blank
and no comments, split at whitespace. -/
def checkerLines (text : List Char) : List (List (List Char)) :=
  ((pyLines text).map pySplit).filter fun tokens =>
    tokens.head?.any fun op => !HazardParse.isComment op

/-- The tokens of a line of the runner: what stands before the first NUL
character, without its trailing blanks, split at blanks. -/
def runnerTokens (line : List Char) : List (List Char) :=
  wordsFrom isBlank [] ((cString line).rdropWhile isTrailing)

/-- The runner's token lists: the lines that `fgets` reads and that are not
blank. -/
def runnerLines (bytes : List Char) : List (List (List Char)) :=
  ((fgetsLines 4096 [] bytes).map runnerTokens).filter (· ≠ [])

theorem lastValue_cons (key tok : List Char) (tokens : List (List Char)) :
    lastValue key (tok :: tokens) = (lastValue key tokens).or
      (if '=' ∈ tok ∧ tok.takeWhile (· != '=') = key
        then some (tok.dropWhile (· != '=')).tail else none) := by
  rw [lastValue, List.reverse_cons, List.findSome?_append, List.findSome?_singleton]
  rfl

/-- Later fields replace earlier ones. -/
theorem foldl_addPart (parts : List (List Char)) (f : Insn) :
    parts.foldl HazardParse.addPart f
      = ⟨f.op, fun key => (lastValue key parts).or (f.fields key)⟩ := by
  induction parts generalizing f with
  | nil => rfl
  | cons part parts ih =>
      rw [List.foldl_cons, ih, HazardParse.addPart]
      simp only [lastValue_cons, Option.or_assoc]
      split_ifs with heq
      · -- the later value of a key is the one that is found first from the end
        simp only [Insn.setField, heq, true_and]
        refine congrArg (Insn.mk f.op) (funext fun key => congrArg _ ?_)
        by_cases hkey : key = part.takeWhile (· != '=')
        · rw [if_pos hkey, if_pos hkey.symm]
          rfl
        · rw [if_neg hkey, if_neg fun h => hkey h.symm]
          rfl
      · simp [heq]

theorem foldl_addToken (parts : List (List Char)) {f : Insn} (hop : f.op ≠ []) :
    parts.foldl Insn.addToken f = parts.foldl HazardParse.addPart f := by
  induction parts generalizing f with
  | nil => rfl
  | cons part parts ih =>
      have hstep : f.addToken part = HazardParse.addPart f part := if_neg hop
      have hop' : (HazardParse.addPart f part).op ≠ [] := by
        unfold HazardParse.addPart
        split_ifs
        · exact hop
        · exact hop
      rw [List.foldl_cons, List.foldl_cons, hstep, ih hop']

theorem insnOf_cons (op : List Char) (parts : List (List Char)) :
    parts.foldl HazardParse.addPart ⟨op, fun _ => none⟩ = insnOf (op :: parts) := by
  rw [foldl_addPart]
  simp only [Option.or_none]
  rfl

theorem filterMap_kept {α β : Type} {f : α → Option β} {g : α → β} {p : α → Bool}
    {l : List α} (h : ∀ x ∈ l, f x = if p x then some (g x) else none) :
    l.filterMap f = (l.filter p).map g := by
  induction l with
  | nil => rfl
  | cons x l ih =>
      have ih := ih fun y hy => h y (List.mem_cons_of_mem x hy)
      rw [List.filterMap_cons, h x List.mem_cons_self, ih, List.filter_cons]
      split_ifs <;> rfl

/-- **The checker's instructions** are its token lists. -/
theorem parseEasm_checkerLines (text : List Char) :
    HazardParse.parseEasm text = (checkerLines text).map insnOf := by
  rw [HazardParse.parseEasm, checkerLines, ← filterMap_kept (f := HazardParse.ofTokens),
    List.filterMap_map]
  · exact List.filterMap_congr fun line _ => HazardParse.parseLine_eq line
  · intro tokens _
    cases tokens with
    | nil => rfl
    | cons op parts =>
        rw [HazardParse.ofTokens, insnOf_cons, List.head?_cons, Option.any_some]
        cases HazardParse.isComment op <;> rfl

theorem isTrailing_of_isBlank {c : Char} (hc : isBlank c = true) : isTrailing c = true := by
  unfold isBlank at hc
  rw [isTrailing, hc]
  rfl

theorem runnerTokens_eq_nil {line : List Char} :
    runnerTokens line = [] ↔ (cString line).rdropWhile isTrailing = [] := by
  rw [runnerTokens, wordsFrom_eq_nil]
  constructor
  · intro h
    rw [← List.rdropWhile_idempotent, List.rdropWhile_eq_nil_iff]
    exact fun c hc => isTrailing_of_isBlank (h c hc)
  · intro h c hc
    rw [h] at hc
    cases hc

/-- **The runner's instructions** are its token lists. -/
theorem parseFile_runnerLines (bytes : List Char) :
    parseFile bytes = (runnerLines bytes).map insnOf := by
  rw [parseFile, runnerLines, List.filter_map, List.map_map]
  refine filterMap_kept fun line _ => ?_
  rw [readLine]
  simp only [← runnerTokens_eq_nil, Function.comp_apply, ne_eq, decide_not]
  by_cases hnil : runnerTokens line = []
  · rw [if_pos hnil, decide_eq_true hnil]
    rfl
  · rw [if_neg hnil, decide_eq_false hnil, parseLine]
    show some ((runnerTokens line).foldl _ _) = some (insnOf (runnerTokens line))
    have hwords : ∀ tok ∈ runnerTokens line, tok ≠ [] := fun tok htok =>
      (isWord_of_mem (by simp) htok).1
    cases htokens : runnerTokens line with
    | nil => exact absurd htokens hnil
    | cons op parts =>
        have hop : op ≠ [] := hwords op (by rw [htokens]; exact List.mem_cons_self)
        rw [List.foldl_cons, show Insn.addToken ⟨[], fun _ => none⟩ op
          = ⟨op, fun _ => none⟩ from rfl, foldl_addToken parts hop, insnOf_cons]

/-! ## Plain lines -/

/-- What stands between two newlines, if anything does. -/
def newlineLines (text : List Char) : List (List Char) :=
  wordsFrom (· == '\n') [] text

/-- A line that both tools split alike: no NUL character, room for it in the
buffer of `fgets`, and only blanks between its tokens. -/
structure PlainLine (line : List Char) : Prop where
  noNul : Char.ofNat 0 ∉ line
  fits : (utf8Text line).length < 4096
  blanks : ∀ c ∈ line.rdropWhile isTrailing, pyIsSpace c = true → isBlank c = true

instance (line : List Char) : Decidable (PlainLine line) :=
  decidable_of_iff
    (Char.ofNat 0 ∉ line ∧ (utf8Text line).length < 4096
      ∧ (line.rdropWhile isTrailing).all (fun c => pyIsSpace c → isBlank c) = true)
    (by
      simp only [List.all_eq_true, decide_eq_true_eq]
      exact ⟨fun ⟨h₁, h₂, h₃⟩ => ⟨h₁, h₂, h₃⟩, fun ⟨h₁, h₂, h₃⟩ => ⟨h₁, h₂, h₃⟩⟩)

/-! ## The checker's lines -/

theorem pyIsSpace_of_isTrailing {c : Char} (hc : isTrailing c = true) :
    pyIsSpace c = true := by
  unfold isTrailing at hc
  simp only [Bool.or_eq_true, beq_iff_eq] at hc
  rcases hc with ((rfl | rfl) | rfl) | rfl <;> decide

theorem isNewline_of_isBlank {c : Char} (hc : isBlank c = true) : isNewline c = false := by
  unfold isBlank at hc
  simp only [Bool.or_eq_true, beq_iff_eq] at hc
  rcases hc with rfl | rfl <;> decide

theorem pyIsSpace_of_isNewline {c : Char} (hc : isNewline c = true) :
    pyIsSpace c = true := by
  unfold isNewline at hc
  simp only [Bool.or_eq_true, beq_iff_eq] at hc
  rcases hc with rfl | rfl <;> decide

theorem pySplit_append {t : List Char} (ht : ∀ c ∈ t, pyIsSpace c = true) (s : List Char) :
    pySplit (s ++ t) = pySplit s := wordsFrom_append_seps ht [] s

/-- Carriage returns at the end of a line only add blank lines. -/
theorem parseLine_pyLines {word t : List Char} (ht : ∀ c ∈ t, pyIsSpace c = true) :
    (wordsFrom isNewline word t).filterMap HazardParse.parseLine
      = (HazardParse.parseLine word).toList := by
  have hnil : HazardParse.parseLine [] = none := rfl
  induction t generalizing word with
  | nil =>
      rw [wordsFrom]
      split_ifs with hword
      · rw [hword, hnil]
        rfl
      · cases h : HazardParse.parseLine word <;> simp [h]
  | cons c t ih =>
      have ih' := fun w => @ih w fun d hd => ht d (List.mem_cons_of_mem c hd)
      rw [wordsFrom]
      split_ifs with hc hword
      · rw [ih', hword]
      · -- a newline ends the word, and what follows is blank
        rw [List.filterMap_cons, ih' [], hnil]
        cases HazardParse.parseLine word <;> rfl
      · rw [ih' (word ++ [c]), HazardParse.parseLine_eq, HazardParse.parseLine_eq,
          pySplit_append]
        intro d hd
        rw [List.mem_singleton.mp hd]
        exact ht c List.mem_cons_self

theorem trimmed_append (line : List Char) :
    line.rdropWhile isTrailing ++ line.rtakeWhile isTrailing = line :=
  List.rdropWhile_append_rtakeWhile

theorem isTrailing_of_mem_rtakeWhile {line : List Char} {c : Char}
    (hc : c ∈ line.rtakeWhile isTrailing) : isTrailing c = true :=
  List.mem_rtakeWhile_imp hc

theorem pySplit_trimmed (line : List Char) :
    pySplit (line.rdropWhile isTrailing) = pySplit line := by
  have h := pySplit_append (t := line.rtakeWhile isTrailing)
    (fun c hc => pyIsSpace_of_isTrailing (isTrailing_of_mem_rtakeWhile hc))
    (line.rdropWhile isTrailing)
  rw [trimmed_append] at h
  exact h.symm

theorem parseLine_plainLine {line : List Char} (h : PlainLine line) :
    (wordsFrom isNewline [] line).filterMap HazardParse.parseLine
      = (HazardParse.parseLine line).toList := by
  have hnone : ∀ c ∈ line.rdropWhile isTrailing, isNewline c = false := by
    intro c hc
    by_contra hnewline
    rw [Bool.not_eq_false] at hnewline
    have hblank := h.blanks c hc (pyIsSpace_of_isNewline hnewline)
    rw [isNewline_of_isBlank hblank] at hnewline
    cases hnewline
  have hline := wordsFrom_append hnone [] (line.rtakeWhile isTrailing)
  rw [trimmed_append, List.nil_append] at hline
  rw [hline, parseLine_pyLines fun c hc =>
    pyIsSpace_of_isTrailing (isTrailing_of_mem_rtakeWhile hc)]
  rw [HazardParse.parseLine_eq, HazardParse.parseLine_eq, pySplit_trimmed]

/-- **The checker's instructions**, line by line. -/
theorem parseEasm_lines {text : List Char} (h : ∀ line ∈ newlineLines text, PlainLine line) :
    HazardParse.parseEasm text
      = ((newlineLines text).map pySplit).filterMap HazardParse.ofTokens := by
  have hlines : pyLines text = (newlineLines text).flatMap (wordsFrom isNewline []) :=
    (wordsFrom_flatMap (fun c hc => by simp [isNewline, hc]) [] text).symm
  have hsplit : ∀ line ∈ newlineLines text,
      (wordsFrom isNewline [] line).filterMap HazardParse.parseLine
        = ((HazardParse.ofTokens ∘ pySplit) line).toList := by
    intro line hline
    rw [parseLine_plainLine (h line hline), HazardParse.parseLine_eq]
    rfl
  rw [HazardParse.parseEasm, hlines, List.filterMap_flatMap, List.filterMap_map,
    List.filterMap_eq_flatMap_toList]
  exact List.flatMap_congr hsplit

/-! ## The runner's lines -/

/-- The runner's instruction of a line, from the checker's tokens of it. -/
def readTokens (tokens : List (List Char)) : Option Insn :=
  if tokens = [] then none
  else some ((tokens.map utf8Text).foldl Insn.addToken ⟨[], fun _ => none⟩)

theorem isTrailing_ascii {c : Char} (hc : isTrailing c = true) : c.toNat < 128 := by
  unfold isTrailing at hc
  simp only [Bool.or_eq_true, beq_iff_eq] at hc
  rcases hc with ((rfl | rfl) | rfl) | rfl <;> decide

/-- Trimming the bytes of a line is trimming the line. -/
theorem rdropWhile_utf8Text (line : List Char) :
    (utf8Text line).rdropWhile isTrailing = utf8Text (line.rdropWhile isTrailing) := by
  induction line using List.reverseRecOn with
  | nil => rfl
  | append_singleton line c ih =>
      rw [utf8Text_append, utf8Text_singleton]
      cases hc : isTrailing c with
      | true =>
          rw [utf8Char_ascii (isTrailing_ascii hc), List.rdropWhile_concat_pos _ _ _ hc,
            List.rdropWhile_concat_pos _ _ _ hc, ih]
      | false =>
          -- the last byte of a character is a blank only if the character is one
          have hlast : ¬ isTrailing ((utf8Char c).getLast (utf8Char_ne_nil c)) = true := by
            intro hlast
            have hmem := List.getLast_mem (utf8Char_ne_nil c)
            rw [(mem_utf8Char (isTrailing_ascii hlast)).mp hmem, hc] at hlast
            cases hlast
          rw [← List.dropLast_concat_getLast (utf8Char_ne_nil c), ← List.append_assoc,
            List.rdropWhile_concat_neg _ _ _ hlast, List.rdropWhile_concat_neg _ _ _
              (by simp [hc]), utf8Text_append, utf8Text_singleton, List.append_assoc,
            List.dropLast_concat_getLast]

theorem trimmed_eq_nil {line : List Char} (h : PlainLine line) :
    line.rdropWhile isTrailing = [] ↔ pySplit line = [] := by
  rw [← pySplit_trimmed]
  constructor
  · intro hnil
    rw [hnil]
    rfl
  · intro hwords
    have hspace := wordsFrom_eq_nil.mp hwords
    rw [← List.rdropWhile_idempotent, List.rdropWhile_eq_nil_iff]
    exact fun c hc => isTrailing_of_isBlank (h.blanks c hc (hspace c hc))

theorem wordsFrom_trimmed {line : List Char} (h : PlainLine line) :
    wordsFrom isBlank [] ((utf8Text line).rdropWhile isTrailing)
      = (pySplit line).map utf8Text := by
  rw [rdropWhile_utf8Text, ← pySplit_trimmed]
  refine wordsFrom_utf8 (fun c hc hspace => ?_) (fun c _ hword b hb => ?_) []
  · have hblank := h.blanks c hc hspace
    exact ⟨utf8Char_ascii (isTrailing_ascii (isTrailing_of_isBlank hblank)), hblank⟩
  · by_contra hblank
    rw [Bool.not_eq_false] at hblank
    have htrailing := isTrailing_of_isBlank hblank
    rw [(mem_utf8Char (isTrailing_ascii htrailing)).mp hb] at htrailing
    rw [pyIsSpace_of_isTrailing htrailing] at hword
    cases hword

theorem readLine_plainLine {line : List Char} (h : PlainLine line) :
    readLine (utf8Text line) = readTokens (pySplit line) := by
  have hnul : Char.ofNat 0 ∉ utf8Text line := by
    rw [mem_utf8Text (by decide)]
    exact h.noNul
  rw [readLine_eq hnul, readTokens, parseLine, wordsFrom_trimmed h]
  simp only [rdropWhile_utf8Text, utf8Text_eq_nil, trimmed_eq_nil h]

/-- **The runner's instructions**, line by line. -/
theorem parseFile_lines {text : List Char} (h : ∀ line ∈ newlineLines text, PlainLine line) :
    parseFile (utf8Text text) = ((newlineLines text).map pySplit).filterMap readTokens := by
  have hlines : wordsFrom (· == '\n') [] (utf8Text text)
      = (newlineLines text).map utf8Text := by
    refine wordsFrom_utf8 (fun c _ hc => ?_) (fun c _ hc b hb => ?_) []
    · rw [beq_iff_eq] at hc
      subst hc
      exact ⟨utf8Char_ascii (by decide), rfl⟩
    · by_contra hnewline
      rw [Bool.not_eq_false, beq_iff_eq] at hnewline
      subst hnewline
      rw [(mem_utf8Char (by decide)).mp hb, beq_self_eq_true] at hc
      cases hc
  rw [parseFile_words, hlines, List.filterMap_map, List.filterMap_map]
  · exact List.filterMap_congr fun line hline => readLine_plainLine (h line hline)
  · intro bytes hbytes
    rw [hlines] at hbytes
    obtain ⟨line, hline, rfl⟩ := List.mem_map.mp hbytes
    exact (h line hline).fits

/-! ## Opcode and fields -/

/-- The checker's instruction `f` and the runner's instruction `g` of one
line. -/
structure SameFields (f g : Insn) : Prop where
  op : g.op = utf8Text f.op
  fields : ∀ key : List Char, (∀ c ∈ key, c.toNat < 128) →
    g.fields key = (f.fields key).map utf8Text

theorem SameFields.setField {f g : Insn} (h : SameFields f g) (key value : List Char) :
    SameFields (f.setField key value) (g.setField (utf8Text key) (utf8Text value)) := by
  refine ⟨h.op, fun k hk => ?_⟩
  have hkey : k = utf8Text key ↔ k = key := by
    rw [eq_comm, utf8Text_eq_ascii hk, eq_comm]
  simp only [Insn.setField, hkey]
  split_ifs
  · rfl
  · exact h.fields k hk

theorem dropWhile_eq_sign {part : List Char} (h : '=' ∈ part) :
    ∃ value, part.dropWhile (· != '=') = '=' :: value := by
  cases hdrop : part.dropWhile (· != '=') with
  | nil =>
      have hall := List.dropWhile_eq_nil_iff.mp hdrop _ h
      rw [bne_self_eq_false] at hall
      cases hall
  | cons c value =>
      have hhead := List.head_dropWhile_not (· != '=') (w := by rw [hdrop]; simp)
      simp only [hdrop, List.head_cons, bne_eq_false_iff_eq] at hhead
      exact ⟨value, by rw [hhead]⟩

theorem SameFields.addPart {f g : Insn} (h : SameFields f g) (hop : f.op ≠ [])
    (part : List Char) :
    SameFields (HazardParse.addPart f part) (g.addToken (utf8Text part)) := by
  have hop' : g.op ≠ [] := by
    rw [h.op, Ne, utf8Text_eq_nil]
    exact hop
  have hmem : '=' ∈ utf8Text part ↔ '=' ∈ part := mem_utf8Text (by decide)
  rw [HazardParse.addPart, Insn.addToken, if_neg hop']
  simp only [hmem]
  split_ifs with heq
  · obtain ⟨value, hvalue⟩ := dropWhile_eq_sign heq
    rw [takeWhile_utf8Text (by decide), dropWhile_utf8Text (by decide), hvalue,
      utf8Text_cons, utf8Char_ascii (by decide)]
    exact h.setField _ value
  · exact h

@[simp] theorem addPart_op (f : Insn) (part : List Char) :
    (HazardParse.addPart f part).op = f.op := by
  rw [HazardParse.addPart]
  split_ifs <;> rfl

theorem SameFields.foldl {parts : List (List Char)} {f g : Insn} (h : SameFields f g)
    (hop : f.op ≠ []) :
    SameFields (parts.foldl HazardParse.addPart f)
      ((parts.map utf8Text).foldl Insn.addToken g) := by
  induction parts generalizing f g with
  | nil => exact h
  | cons part parts ih =>
      rw [List.map_cons, List.foldl_cons, List.foldl_cons]
      exact ih (h.addPart hop part) (by rwa [addPart_op])

/-- **One line, two instructions** with the same opcode and fields. -/
theorem sameFields_tokens {op : List Char} (hop : op ≠ []) (parts : List (List Char)) :
    ∃ g, readTokens (op :: parts) = some g ∧
      SameFields (parts.foldl HazardParse.addPart ⟨op, fun _ => none⟩) g := by
  have hstart : SameFields ⟨op, fun _ => none⟩
      (Insn.addToken ⟨[], fun _ => none⟩ (utf8Text op)) :=
    ⟨rfl, fun _ _ => rfl⟩
  refine ⟨_, rfl, ?_⟩
  exact hstart.foldl hop

end EclipseNpu.Tools
