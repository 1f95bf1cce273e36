import EclipseNpu.Tools.SameInsn
import EclipseNpu.Tools.SameTokens

/-!
# Tools — SameProgram

Whether `eclipse-run` executes the program the checker has read. It does
exactly if the token lists of the two are alike, line by line
(`sameProgram_alike`). For a file of plain lines and numbers (`PlainText`)
these are the same token lists, and what is left are the comments, which only
the checker knows, the numbers with a leading zero, which only the runner
takes for octal, and the fields that only the runner needs
(`sameProgram_plain`).
-/

namespace EclipseNpu.Tools

open EclipseNpu.Lib EclipseNpu.Runtime
open HazardParse (CheckedInsn)

/-- **The runner reads the checker's program**, and accepts it. -/
def SameProgram (text : List Char) (checked : List CheckedInsn) (s : CModel) : Prop :=
  ∃ out, readFile (utf8Text text) s = some out ∧ List.Forall₂ SameInsn checked out

/-- The token lists of the checker and of the runner, in pairs. -/
def LinesAlike (text : List Char) : Prop :=
  List.Forall₂ (fun tokens tokens' => Alike (insnOf tokens) (insnOf tokens'))
    (checkerLines text) (runnerLines (utf8Text text))

/-! ## Plain files -/

/-- Hexadecimal or decimal, and no more than `strtoul` holds. -/
def PlainAddress (f : Insn) (key : String) : Prop :=
  ∀ s, f.fields key.toList = some s →
    (IsHex s ∧ readMagnitude (unsigned s) < 2 ^ 64)
      ∨ (IsDecimal s ∧ readDigits 10 (unsigned s) < 2 ^ 64)

/-- Decimal, and no more than `strtol` holds. -/
def PlainInteger (f : Insn) (key : String) : Prop :=
  ∀ s, f.fields key.toList = some s → IsDecimal s ∧ FitsLong s

/-- The numbers of an instruction that both tools read are plain ones. -/
structure PlainNumbers (f : Insn) : Prop where
  addresses : ∀ key ∈ addressKeys f, PlainAddress f key
  integers : ∀ key ∈ integerKeys f, PlainInteger f key

/-- A file whose lines and numbers are plain ones. -/
structure PlainText (text : List Char) : Prop where
  lines : ∀ line ∈ newlineLines text, PlainLine line
  numbers : ∀ f ∈ HazardParse.parseEasm text, PlainNumbers f

/-- The octal reading of a number agrees, should it have a leading zero. -/
def SameOctal (f : Insn) (key : String) : Prop :=
  ∀ s, f.fields key.toList = some s → OctalAgrees (2 ^ 32) s

/-- There is a place for the descriptor. -/
def DescPlaced (f : Insn) : Prop :=
  ∃ s, f.fields "desc".toList = some s
    ∧ DDR_ADDR.toNat ≤ (hexVal (utf8Text s)).toNat
    ∧ (hexVal (utf8Text s)).toNat + descSize f ≤ ddrEnd

/-- What the runner asks of an instruction beyond what the checker does. -/
structure Runnable (f : Insn) : Prop where
  integers : ∀ key ∈ integerKeys f, SameOctal f key
  fields : ∀ key ∈ runnerKeys f, (f.fields key.toList).isSome
  desc : f.op ≠ "SYNC".toList → DescPlaced f

/-- No comments, and instructions the runner can take. -/
structure RunnableText (text : List Char) : Prop where
  comments : ∀ line ∈ newlineLines text, HazardParse.isComment (pyStrip line) = false
  insns : ∀ f ∈ HazardParse.parseEasm text, Runnable f

section Decidable

variable (f : Insn) (key : String)

instance : Decidable (PlainAddress f key) :=
  inferInstanceAs (Decidable (∀ s ∈ f.fields key.toList, _))

instance : Decidable (PlainInteger f key) :=
  inferInstanceAs (Decidable (∀ s ∈ f.fields key.toList, _))

instance : Decidable (SameOctal f key) :=
  inferInstanceAs (Decidable (∀ s ∈ f.fields key.toList, _))

instance : Decidable (DescPlaced f) :=
  inferInstanceAs (Decidable (∃ s ∈ f.fields "desc".toList, _))

instance : Decidable (PlainNumbers f) :=
  decidable_of_iff ((∀ key ∈ addressKeys f, PlainAddress f key)
      ∧ ∀ key ∈ integerKeys f, PlainInteger f key)
    ⟨fun ⟨h₁, h₂⟩ => ⟨h₁, h₂⟩, fun ⟨h₁, h₂⟩ => ⟨h₁, h₂⟩⟩

instance : Decidable (Runnable f) :=
  decidable_of_iff ((∀ key ∈ integerKeys f, SameOctal f key)
      ∧ (∀ key ∈ runnerKeys f, (f.fields key.toList).isSome)
      ∧ (f.op ≠ "SYNC".toList → DescPlaced f))
    ⟨fun ⟨h₁, h₂, h₃⟩ => ⟨h₁, h₂, h₃⟩, fun ⟨h₁, h₂, h₃⟩ => ⟨h₁, h₂, h₃⟩⟩

end Decidable

/-! ## A plain instruction -/

theorem ofInt_eq_iff {a b : Int} :
    UInt32.ofInt a = UInt32.ofInt b ↔ a ≡ b [ZMOD (2 ^ 32 : Nat)] := by
  have hvalue : ∀ a : Int, ((UInt32.ofInt a).toNat : Int) = a % (2 ^ 32 : Nat) := by
    intro a
    rw [UInt32.ofInt, UInt32.toNat_ofNat']
    omega
  rw [← UInt32.toNat_inj, ← Int.ofNat_inj, hvalue, hvalue]
  rfl

theorem ofNat_eq_ofInt (n : Nat) : UInt32.ofNat n = UInt32.ofInt n := by
  apply UInt32.toNat_inj.mp
  rw [UInt32.ofInt, UInt32.toNat_ofNat', UInt32.toNat_ofNat']
  omega

/-- The characters of a field name. -/
def AsciiKey (key : String) : Prop := key.toList.all (fun c => c.toNat < 128) = true

instance (key : String) : Decidable (AsciiKey key) :=
  inferInstanceAs (Decidable (_ = true))

theorem AsciiKey.range {key : String} (h : AsciiKey key) : ∀ c ∈ key.toList, c.toNat < 128 :=
  fun c hc => of_decide_eq_true (List.all_eq_true.mp h c hc)

theorem utf8Text_literal {s : List Char} (hs : ∀ c ∈ s, IsLiteralChar c) :
    utf8Text s = s :=
  utf8Text_ascii fun c hc => by
    have := (hs c hc).range
    omega

section Plain

variable {f g : Insn} {key : String}

theorem fields_eq (h : SameFields f g) (hkey : AsciiKey key) :
    g.fields key.toList = (f.fields key.toList).map utf8Text :=
  h.fields _ hkey.range

/-- **A plain address** is always the same. -/
theorem sameAddress_plain (h : SameFields f g) (hkey : AsciiKey key)
    (hplain : PlainAddress f key) : SameAddress f g key := by
  intro v hv
  obtain ⟨s, hs, hv⟩ := Option.bind_eq_some_iff.mp hv
  have hsame : v ≡ strtoul s [ZMOD 2 ^ 64] ∧ utf8Text s = s := by
    rcases hplain s hs with ⟨hhex, hrange⟩ | ⟨hdecimal, hrange⟩
    · exact ⟨strtoul_hex hhex hrange hv, utf8Text_literal hhex.literal⟩
    · exact ⟨strtoul_decimal hdecimal hrange hv, utf8Text_literal hdecimal.literal⟩
  refine ⟨s, ?_, ?_⟩
  · rw [fields_eq h hkey, hs, Option.map_some, hsame.2]
  · rw [hexVal, ofNat_eq_ofInt, ofInt_eq_iff]
    exact (hsame.1.of_dvd ⟨2 ^ 32, by norm_num⟩).symm

/-- **A plain number** is the same unless octal reads it differently. -/
theorem sameInteger_plain (h : SameFields f g) (hkey : AsciiKey key)
    (hplain : PlainInteger f key) : SameInteger f g key ↔ SameOctal f key := by
  cases hs : f.fields key.toList with
  | none =>
      constructor
      · intro _ s hs'
        rw [hs] at hs'
        cases hs'
      · intro _ v hv
        rw [HazardParse.integer, hs] at hv
        cases hv
  | some s =>
      obtain ⟨hdecimal, hrange⟩ := hplain s hs
      have hv := pyInt_decimal hdecimal
      have hread : HazardParse.integer f key = pyInt s := by
        rw [HazardParse.integer, hs]
        rfl
      have hrun : g.fields key.toList = some s := by
        rw [fields_eq h hkey, hs, Option.map_some, utf8Text_literal hdecimal.literal]
      have hagree := strtol_decimal hdecimal hrange (n := 2 ^ 32) hv
      simp only [SameInteger, SameOctal, hread, hv, hrun, hs, Option.some_inj, forall_eq',
        exists_eq_left', ofInt_eq_iff, intVal]
      rw [← hagree]
      exact ⟨Int.ModEq.symm, Int.ModEq.symm⟩

theorem descInDdr_plain (h : SameFields f g) : DescInDdr f g ↔ DescPlaced f := by
  rw [DescInDdr, fields_eq h (by decide), DescPlaced]
  simp only [Option.map_eq_some_iff]
  constructor
  · rintro ⟨_, ⟨s, hs, rfl⟩, hrange⟩
    exact ⟨s, hs, hrange⟩
  · rintro ⟨s, hs, hrange⟩
    exact ⟨_, ⟨s, hs, rfl⟩, hrange⟩

theorem asciiKey_address : ∀ key ∈ addressKeys f, AsciiKey key := by
  unfold addressKeys
  split_ifs <;> decide

theorem asciiKey_integer : ∀ key ∈ integerKeys f, AsciiKey key := by
  unfold integerKeys
  split_ifs <;> decide

theorem asciiKey_runner : ∀ key ∈ runnerKeys f, AsciiKey key := by
  unfold runnerKeys
  split_ifs <;> decide

/-- **The same plain fields** are alike if the runner can take them. -/
theorem alike_iff_runnable (h : SameFields f g) (hp : PlainNumbers f)
    (hop : utf8Text f.op = f.op) : Alike f g ↔ Runnable f := by
  constructor
  · intro halike
    refine ⟨fun key hkey => ?_, fun key hkey => ?_, fun hsync => ?_⟩
    · exact (sameInteger_plain h (asciiKey_integer key hkey) (hp.integers key hkey)).mp
        (halike.integers key hkey)
    · have hsome := halike.fields key hkey
      rwa [fields_eq h (asciiKey_runner key hkey), Option.isSome_map] at hsome
    · exact (descInDdr_plain h).mp (halike.desc hsync)
  · intro hrun
    refine ⟨h.op.trans hop, fun key hkey => ?_, fun key hkey => ?_, fun key hkey => ?_,
      fun hsync => ?_⟩
    · exact sameAddress_plain h (asciiKey_address key hkey) (hp.addresses key hkey)
    · exact (sameInteger_plain h (asciiKey_integer key hkey) (hp.integers key hkey)).mpr
        (hrun.integers key hkey)
    · rw [fields_eq h (asciiKey_runner key hkey), Option.isSome_map]
      exact hrun.fields key hkey
    · exact (descInDdr_plain h).mpr (hrun.desc hsync)

end Plain

/-! ## A whole file -/

theorem decodeInsns_ok {gs : List Insn} {out : List EasmInsn} :
    decodeInsns gs = .ok out ↔ List.Forall₂ (fun g x => g.decode = .ok x) gs out := by
  unfold decodeInsns
  induction gs generalizing out with
  | nil =>
      rw [List.mapM_nil, List.forall₂_nil_left_iff]
      exact ⟨fun h => (Except.ok.inj h).symm, fun h => by rw [h]; rfl⟩
  | cons g gs ih =>
      rw [List.mapM_cons, List.forall₂_cons_left_iff]
      constructor
      · intro h
        obtain ⟨x, hx, h⟩ := bind_ok h
        obtain ⟨xs, hxs, h⟩ := bind_ok h
        cases h
        exact ⟨x, xs, hx, ih.mp hxs, rfl⟩
      · rintro ⟨x, xs, hx, hxs, rfl⟩
        rw [hx, ih.mpr hxs]
        rfl

theorem readEasm_some {text : List Char} {checked : List CheckedInsn} :
    HazardParse.readEasm text = some checked ↔
      List.Forall₂ (fun f c => HazardParse.parseInstruction f = some c)
        (HazardParse.parseEasm text) checked := by
  unfold HazardParse.readEasm
  induction HazardParse.parseEasm text generalizing checked with
  | nil =>
      rw [List.mapM_nil, List.forall₂_nil_left_iff]
      exact ⟨fun h => (Option.some.inj h).symm, fun h => by rw [h]; rfl⟩
  | cons f fs ih =>
      rw [List.mapM_cons, List.forall₂_cons_left_iff]
      constructor
      · intro h
        obtain ⟨c, hc, h⟩ := Option.bind_eq_some_iff.mp h
        obtain ⟨cs, hcs, h⟩ := Option.bind_eq_some_iff.mp h
        cases h
        exact ⟨c, cs, hc, ih.mp hcs, rfl⟩
      · rintro ⟨c, cs, hc, hcs, rfl⟩
        rw [hc, ih.mpr hcs]
        rfl

theorem readFile_some {bytes : List Char} {s : CModel} {out : List EasmInsn} :
    readFile bytes s = some out ↔
      List.Forall₂ (fun g x => g.decode = .ok x) (parseFile bytes) out
        ∧ ∀ x ∈ out, SlotInDdr x := by
  rw [← decodeInsns_ok, readFile]
  cases hdecode : decodeInsns (parseFile bytes) with
  | error e =>
      constructor
      · intro h
        cases h
      · rintro ⟨h, -⟩
        cases h
  | ok xs =>
      cases hload : loadDescs xs s with
      | error e =>
          constructor
          · intro h
            rw [Except.toOption, Option.bind_eq_bind, Option.bind_some, hload] at h
            cases h
          · rintro ⟨h, hslot⟩
            cases h
            obtain ⟨s', hs'⟩ := loadDescs_total hslot s
            rw [hload] at hs'
            cases hs'
      | ok s' =>
          constructor
          · intro h
            rw [Except.toOption, Option.bind_eq_bind, Option.bind_some, hload] at h
            cases h
            exact ⟨rfl, (loadDescs_ok hload).1⟩
          · rintro ⟨h, -⟩
            cases h
            rw [Except.toOption, Option.bind_eq_bind, Option.bind_some, hload]
            rfl

/-- The runner reads the same program if it takes every line for what the
checker read. -/
theorem sameProgram_runs {text : List Char} {checked : List CheckedInsn} {s : CModel} :
    SameProgram text checked s ↔ List.Forall₂ Runs (parseFile (utf8Text text)) checked := by
  have hout : ∀ (gs : List Insn) (checked : List CheckedInsn),
      (∃ out, (List.Forall₂ (fun g x => g.decode = .ok x) gs out ∧ ∀ x ∈ out, SlotInDdr x)
        ∧ List.Forall₂ SameInsn checked out) ↔ List.Forall₂ Runs gs checked := by
    intro gs
    induction gs with
    | nil =>
        intro checked
        rw [List.forall₂_nil_left_iff]
        constructor
        · rintro ⟨out, ⟨hout, -⟩, hsame⟩
          rw [List.forall₂_nil_left_iff] at hout
          rw [hout, List.forall₂_nil_right_iff] at hsame
          exact hsame
        · rintro rfl
          exact ⟨[], ⟨.nil, fun x hx => absurd hx List.not_mem_nil⟩, .nil⟩
    | cons g gs ih =>
        intro checked
        constructor
        · rintro ⟨out, ⟨hout, hslot⟩, hsame⟩
          cases hout with
          | cons hx hout =>
              cases hsame with
              | cons hc hsame =>
                  rw [List.forall_mem_cons] at hslot
                  exact .cons ⟨_, hx, hslot.1, hc⟩
                    ((ih _).mp ⟨_, ⟨hout, hslot.2⟩, hsame⟩)
        · intro h
          cases h with
          | cons hrun hrest =>
              obtain ⟨x, hx, hslot, hc⟩ := hrun
              obtain ⟨out, ⟨hout, hslots⟩, hsame⟩ := (ih _).mpr hrest
              exact ⟨x :: out, ⟨.cons hx hout, List.forall_mem_cons.mpr ⟨hslot, hslots⟩⟩,
                .cons hc hsame⟩
  rw [SameProgram, ← hout]
  simp only [readFile_some]

/-! ### Every file -/

theorem forall₂_runs_iff {fs gs : List Insn} {checked : List CheckedInsn}
    (hc : List.Forall₂ (fun f c => HazardParse.parseInstruction f = some c) fs checked) :
    List.Forall₂ Runs gs checked ↔ List.Forall₂ Alike fs gs := by
  induction hc generalizing gs with
  | nil =>
      rw [List.forall₂_nil_right_iff, List.forall₂_nil_left_iff]
  | cons hinsn _ ih =>
      rw [List.forall₂_cons_right_iff, List.forall₂_cons_left_iff]
      simp only [runs_iff hinsn, ih]

/-- **The same program is the same tokens**: for every file the checker
accepts, the runner reads its program exactly if the two find token lists that
are alike. -/
theorem sameProgram_alike {text : List Char} {checked : List CheckedInsn}
    (hc : HazardParse.readEasm text = some checked) (s : CModel) :
    SameProgram text checked s ↔ LinesAlike text := by
  rw [sameProgram_runs, forall₂_runs_iff (readEasm_some.mp hc), parseEasm_checkerLines,
    parseFile_runnerLines, List.forall₂_map_left_iff, List.forall₂_map_right_iff]
  rfl

/-! ### Comments -/

/-- The opcodes are ASCII words, and none starts like a comment. -/
theorem checkedName_plain (c : CheckedInsn) :
    AsciiKey (checkedName c) ∧ HazardParse.isComment (checkedName c).toList = false := by
  have hall : ∀ name ∈ ["SYNC", "DMA_LOAD", "DMA_STORE", "MATMUL", "ELEMENTWISE_ADD",
      "ELEMENTWISE_SUB", "ELEMENTWISE_MUL", "ELEMENTWISE_DIV", "ACT", "REDUCE"],
      AsciiKey name ∧ HazardParse.isComment name.toList = false := by decide
  refine hall _ ?_
  cases c with
  | elementwise op p => cases op <;> simp [checkedName, ewiseName]
  | _ => simp [checkedName]

/-- **The runner has no comments.** -/
theorem not_runs_comment {f g : Insn} (h : SameFields f g)
    (hcomment : HazardParse.isComment f.op = true) (c : CheckedInsn) : ¬ Runs g c := by
  rintro ⟨x, hx, -, hsame⟩
  obtain ⟨hascii, hnot⟩ := checkedName_plain c
  have hop := decode_op hx
  rw [hsame.name_eq, h.op, utf8Text_eq_ascii hascii.range] at hop
  rw [hop, hnot] at hcomment
  cases hcomment

theorem foldl_addPart_op (parts : List (List Char)) (f : Insn) :
    (parts.foldl HazardParse.addPart f).op = f.op := by
  induction parts generalizing f with
  | nil => rfl
  | cons part parts ih => rw [List.foldl_cons, ih, addPart_op]

/-! ### Plain lines -/

/-- **The lines of a file**, by their tokens: the runner takes them for what
the checker read exactly if no line is a comment and all are `Runnable`. -/
theorem runs_lines {lines : List (List (List Char))}
    (hwords : ∀ tokens ∈ lines, ∀ w ∈ tokens, w ≠ [])
    (hp : ∀ f ∈ lines.filterMap HazardParse.ofTokens, PlainNumbers f)
    {checked : List CheckedInsn}
    (hc : List.Forall₂ (fun f c => HazardParse.parseInstruction f = some c)
      (lines.filterMap HazardParse.ofTokens) checked) :
    List.Forall₂ Runs (lines.filterMap readTokens) checked ↔
      (∀ tokens ∈ lines, tokens.head?.any HazardParse.isComment = false)
        ∧ ∀ f ∈ lines.filterMap HazardParse.ofTokens, Runnable f := by
  induction lines generalizing checked with
  | nil =>
      cases hc
      simp
  | cons tokens lines ih =>
      rw [List.forall_mem_cons] at hwords
      obtain ⟨hwords, hrest⟩ := hwords
      rw [List.forall_mem_cons]
      cases tokens with
      | nil =>
          -- a blank line
          have hskip : (([] :: lines).filterMap HazardParse.ofTokens)
              = lines.filterMap HazardParse.ofTokens := rfl
          rw [hskip] at hp hc ⊢
          have hskip' : (([] :: lines).filterMap readTokens) = lines.filterMap readTokens := rfl
          rw [hskip', ih hrest hp hc]
          simp
      | cons op parts =>
          obtain ⟨g, hg, hsame⟩ := sameFields_tokens (hwords op List.mem_cons_self) parts
          rw [List.filterMap_cons_some hg]
          by_cases hcomment : HazardParse.isComment op = true
          · constructor
            · intro h
              cases h with
              | cons hrun _ =>
                  refine absurd hrun (not_runs_comment hsame ?_ _)
                  rw [foldl_addPart_op]
                  exact hcomment
            · rintro ⟨⟨hhead, -⟩, -⟩
              rw [List.head?_cons, Option.any_some, hcomment] at hhead
              cases hhead
          · have hread : HazardParse.ofTokens (op :: parts)
                = some (parts.foldl HazardParse.addPart ⟨op, fun _ => none⟩) :=
              if_neg hcomment
            rw [List.filterMap_cons_some hread] at hp hc ⊢
            rw [List.forall_mem_cons] at hp ⊢
            cases hc with
            | cons hinsn hc =>
                have hop : utf8Text (parts.foldl HazardParse.addPart ⟨op, fun _ => none⟩).op
                    = (parts.foldl HazardParse.addPart ⟨op, fun _ => none⟩).op := by
                  rw [parseInstruction_op hinsn]
                  exact utf8Text_ascii (checkedName_plain _).1.range
                rw [List.forall₂_cons, runs_iff hinsn, alike_iff_runnable hsame hp.1 hop,
                  ih hrest hp.2 hc]
                simp only [List.head?_cons, Option.any_some, Bool.not_eq_true] at hcomment ⊢
                constructor
                · rintro ⟨hrun, hcomments, hruns⟩
                  exact ⟨⟨hcomment, hcomments⟩, hrun, hruns⟩
                · rintro ⟨⟨-, hcomments⟩, hrun, hruns⟩
                  exact ⟨hrun, hcomments, hruns⟩

/-- **On a plain file** the checker accepts, `eclipse-run` accepts it too and
reads the same instructions exactly if the file has no comment, no number that
octal reads differently, and all the fields and descriptor slots the runner
asks for. -/
theorem sameProgram_plain {text : List Char} {checked : List CheckedInsn}
    (hp : PlainText text) (hc : HazardParse.readEasm text = some checked) (s : CModel) :
    SameProgram text checked s ↔ RunnableText text := by
  have hwords : ∀ tokens ∈ (newlineLines text).map pySplit, ∀ w ∈ tokens, w ≠ [] := by
    intro tokens htokens w hw
    obtain ⟨line, -, rfl⟩ := List.mem_map.mp htokens
    exact (isWord_of_mem (by simp) hw).1
  have hinsns := parseEasm_lines hp.lines
  have hnumbers := hp.numbers
  rw [readEasm_some, hinsns] at hc
  rw [hinsns] at hnumbers
  rw [sameProgram_runs, parseFile_lines hp.lines, runs_lines hwords hnumbers hc]
  constructor
  · rintro ⟨hcomments, hruns⟩
    refine ⟨fun line hline => ?_, hinsns ▸ hruns⟩
    rw [HazardParse.isComment_pyStrip]
    exact hcomments _ (List.mem_map_of_mem hline)
  · rintro ⟨hcomments, hruns⟩
    refine ⟨fun tokens htokens => ?_, hinsns ▸ hruns⟩
    obtain ⟨line, hline, rfl⟩ := List.mem_map.mp htokens
    rw [← HazardParse.isComment_pyStrip]
    exact hcomments line hline

/-- A load, a fence and an activation, with a blank line and trailing blanks. -/
def sampleEasm : List Char :=
  ["DMA_LOAD desc=0x40000000 ", "sram=0x10000000 ", "ddr=0x40010000 ", "rows=4 cols=8 ",
    "srcStride=16 ", "dstStride=0 \r\n", "SYNC\n\n", "ACT\tdesc=0x40000020 ",
    "dst=0x10000100 ", "src=0x10000000 ", "n=32 kind=0\n"].flatMap String.toList

/-- The runner stops at the comment the checker skips. -/
def commentEasm : List Char := "# a fence\nSYNC\n".toList

/-- Ten elements for the checker, eight for the runner. -/
def octalEasm : List Char :=
  ["ACT desc=0x40000000 ", "dst=0x10000100 ", "src=0x10000000 ",
    "n=010 kind=0\n"].flatMap String.toList

end EclipseNpu.Tools
