import EclipseNpu.Runtime.EasmParse

/-!
# Compiler — EasmText

The text of an `.easm` file: `EasmLine` is what an emitter hands to `formatv`,
`EasmLine.format` its format string. `eclipse-run` decodes every line to the
instruction it stands for (`decodeInsns_easmText`).
-/

namespace EclipseNpu.Compiler

open EclipseNpu.Lib EclipseNpu.Runtime

/-! ## Lines -/

/-- The values in one line. Dimensions of a DMA or a REDUCE are `int64_t`, the
strides of a whole-buffer DMA `size_t`; the rest is `uint32_t`. -/
inductive EasmLine
  | dmaLoad (descAddr sram addr : UInt32) (rows cols srcStride dstStride : Nat)
  | dmaStore (descAddr sram addr : UInt32) (rows cols srcStride dstStride : Nat)
  | matmul (descAddr dst lhs rhs M N K acc : UInt32) (transA transB : Bool)
  | ewise (op : EwiseOp) (descAddr dst lhs rhs rows cols blk stride : UInt32)
  | act (descAddr dst src n kind : UInt32)
  | reduce (descAddr dst : UInt32) (idx : Option UInt32) (src : UInt32)
      (rows cols : Nat) (kind : UInt32)
  | sync
  deriving DecidableEq, Repr

/-- A format string: the mnemonic left-aligned, then ` key=value` fields. -/
structure LineFormat where
  width : Nat
  mnemonic : String
  fields : List (String × List Char)

/-- `{:x}` of a `uint32_t`. -/
def hex (v : UInt32) : List Char := hexText v.toNat

/-- `{:d}` of a `uint32_t`. -/
def dec (v : UInt32) : List Char := decimalText v.toNat

def fieldText (f : String × List Char) : List Char := f.1.toList ++ '=' :: f.2

def LineFormat.text (f : LineFormat) : List Char :=
  f.mnemonic.toList.rightpad f.width ' '
    ++ (f.fields.map fieldText).flatMap (' ' :: ·)

def ewiseMnemonic : EwiseOp → String
  | .add => "ELEMENTWISE_ADD"
  | .sub => "ELEMENTWISE_SUB"
  | .mul => "ELEMENTWISE_MUL"
  | .div => "ELEMENTWISE_DIV"

def boolWord (b : Bool) : UInt32 := if b then 1 else 0

def EasmLine.format : EasmLine → LineFormat
  | .dmaLoad descAddr sram addr rows cols srcStride dstStride =>
      ⟨15, "DMA_LOAD", [("desc", hex descAddr), ("sram", hex sram), ("ddr", hex addr),
        ("rows", decimalText rows), ("cols", decimalText cols),
        ("srcStride", decimalText srcStride), ("dstStride", decimalText dstStride)]⟩
  | .dmaStore descAddr sram addr rows cols srcStride dstStride =>
      ⟨15, "DMA_STORE", [("desc", hex descAddr), ("sram", hex sram), ("ddr", hex addr),
        ("rows", decimalText rows), ("cols", decimalText cols),
        ("srcStride", decimalText srcStride), ("dstStride", decimalText dstStride)]⟩
  | .matmul descAddr dst lhs rhs M N K acc transA transB =>
      ⟨14, "MATMUL", [("desc", hex descAddr), ("dst", hex dst), ("lhs", hex lhs),
        ("rhs", hex rhs), ("M", dec M), ("N", dec N), ("K", dec K), ("acc", dec acc),
        ("ta", dec (boolWord transA)), ("tb", dec (boolWord transB))]⟩
  | .ewise op descAddr dst lhs rhs rows cols blk stride =>
      ⟨15, ewiseMnemonic op, [("desc", hex descAddr), ("dst", hex dst),
        ("lhs", hex lhs), ("rhs", hex rhs), ("rows", dec rows), ("cols", dec cols),
        ("blk", dec blk), ("stride", dec stride)]⟩
  | .act descAddr dst src n kind =>
      ⟨15, "ACT", [("desc", hex descAddr), ("dst", hex dst), ("src", hex src),
        ("n", dec n), ("kind", dec kind)]⟩
  | .reduce descAddr dst (some idx) src rows cols kind =>
      ⟨15, "REDUCE", [("desc", hex descAddr), ("dst", hex dst), ("idx", hex idx),
        ("src", hex src), ("rows", decimalText rows), ("cols", decimalText cols),
        ("kind", dec kind)]⟩
  | .reduce descAddr dst none src rows cols kind =>
      ⟨15, "REDUCE", [("desc", hex descAddr), ("dst", hex dst), ("src", hex src),
        ("rows", decimalText rows), ("cols", decimalText cols), ("kind", dec kind)]⟩
  | .sync => ⟨0, "SYNC", []⟩

/-- The file. -/
def easmText (lines : List EasmLine) : List Char :=
  lines.flatMap fun line => line.format.text ++ ['\n']

/-! ## Reading a line back -/

/-- Text the parser keeps whole. -/
def plainText (s : List Char) : Bool := s.all fun c => !isTrailing c && c != '='

/-- A number as text. -/
def PlainValue (value : List Char) : Prop :=
  (∀ c ∈ value, digitValue c < 36) ∧ value.length ≤ 20

/-- The constant part of a format: the mnemonic is a word, nothing is padded at
the end of a line, and the keys differ. -/
def plainHead (width : Nat) (mnemonic : String) (keys : List String) : Bool :=
  !mnemonic.toList.isEmpty && plainText mnemonic.toList
    && decide (mnemonic.toList.length ≤ 15 ∧ width ≤ 15)
    && (!keys.isEmpty || decide (width ≤ mnemonic.toList.length))
    && keys.all (fun key => plainText key.toList && decide (key.toList.length ≤ 9))
    && decide keys.Nodup && decide (keys.length ≤ 11)

/-- **What the parser needs of a format.** -/
structure LineFormat.Plain (f : LineFormat) : Prop where
  head : plainHead f.width f.mnemonic (f.fields.map (·.1)) = true
  values : ∀ value ∈ f.fields.map (·.2), PlainValue value

theorem plainText_iff {s : List Char} :
    plainText s = true ↔ (∀ c ∈ s, isTrailing c = false) ∧ '=' ∉ s := by
  simp only [plainText, List.all_eq_true, Bool.and_eq_true, Bool.not_eq_true', bne_iff_ne]
  constructor
  · intro h
    exact ⟨fun c hc => (h c hc).1, fun hmem => (h _ hmem).2 rfl⟩
  · intro h c hc
    exact ⟨h.1 c hc, fun heq => h.2 (heq ▸ hc)⟩

namespace LineFormat.Plain

variable {f : LineFormat}

theorem head_and (h : f.Plain) :
    (f.mnemonic.toList ≠ [] ∧ plainText f.mnemonic.toList = true)
      ∧ (f.mnemonic.toList.length ≤ 15 ∧ f.width ≤ 15)
      ∧ (f.fields = [] → f.width ≤ f.mnemonic.toList.length)
      ∧ (∀ p ∈ f.fields, plainText p.1.toList = true ∧ p.1.toList.length ≤ 9)
      ∧ (f.fields.map (·.1)).Nodup ∧ f.fields.length ≤ 11 := by
  have hhead := h.head
  simp only [plainHead, Bool.and_eq_true, Bool.or_eq_true, Bool.not_eq_true',
    List.isEmpty_eq_false_iff, decide_eq_true_eq, List.all_eq_true, ne_eq,
    List.map_eq_nil_iff, List.length_map] at hhead
  obtain ⟨⟨⟨⟨⟨⟨hne, hm⟩, hlen⟩, hpad⟩, hkeys⟩, hnodup⟩, hcount⟩ := hhead
  exact ⟨⟨hne, hm⟩, hlen, fun hnil => hpad.resolve_left (not_not_intro hnil),
    fun p hp => hkeys p.1 (List.mem_map_of_mem hp), hnodup, hcount⟩

theorem mnemonic_ne_nil (h : f.Plain) : f.mnemonic.toList ≠ [] := h.head_and.1.1

theorem mnemonic_plain (h : f.Plain) : ∀ c ∈ f.mnemonic.toList, isTrailing c = false :=
  (plainText_iff.mp h.head_and.1.2).1

theorem keys (h : f.Plain) {p : String × List Char} (hp : p ∈ f.fields) :
    plainText p.1.toList = true :=
  (h.head_and.2.2.2.1 p hp).1

theorem nodup (h : f.Plain) : (f.fields.map (·.1)).Nodup := h.head_and.2.2.2.2.1

end LineFormat.Plain

theorem not_trailing_of_digit {c : Char} (hc : digitValue c < 36) :
    isTrailing c = false := by
  cases h : isTrailing c with
  | false => rfl
  | true =>
      simp only [isTrailing, Bool.or_eq_true, beq_iff_eq] at h
      rcases h with ((rfl | rfl) | rfl) | rfl
      all_goals exact absurd hc (by decide)

theorem isTrailing_of_isBlank {c : Char} (h : isBlank c = true) :
    isTrailing c = true := by
  simp only [isBlank, Bool.or_eq_true] at h
  simp only [isTrailing, Bool.or_eq_true]
  exact .inl (.inl h)

theorem isWord_of_plain {w : List Char} (hne : w ≠ [])
    (h : ∀ c ∈ w, isTrailing c = false) : IsWord isBlank w := by
  refine ⟨hne, fun c hc => ?_⟩
  rw [Bool.eq_false_iff]
  intro hb
  have := h c hc
  rw [isTrailing_of_isBlank hb] at this
  cases this

section Line

variable {f : LineFormat}

theorem LineFormat.Plain.fieldText (h : f.Plain) {p : String × List Char}
    (hp : p ∈ f.fields) :
    fieldText p ≠ [] ∧ ∀ c ∈ fieldText p, isTrailing c = false := by
  have hkey := plainText_iff.mp (h.keys hp)
  have hvalue := h.values p.2 (List.mem_map_of_mem hp)
  refine ⟨by simp [Compiler.fieldText], fun c hc => ?_⟩
  rw [Compiler.fieldText, List.mem_append, List.mem_cons] at hc
  rcases hc with hc | rfl | hc
  · exact hkey.1 c hc
  · decide
  · exact not_trailing_of_digit (hvalue.1 c hc)

/-- Trimming cuts the newline and no more. -/
theorem rdropWhile_newline {s x w : List Char} (hs : s = x ++ w) (hw : w ≠ [])
    (hplain : ∀ c ∈ w, isTrailing c = false) :
    (s ++ ['\n']).rdropWhile isTrailing = s := by
  rw [List.rdropWhile_concat_pos _ _ _ (by decide), List.rdropWhile_eq_self_iff]
  intro hne
  subst hs
  rw [List.getLast_append_of_ne_nil hne hw, hplain _ (List.getLast_mem hw)]
  decide

theorem LineFormat.Plain.trim (h : f.Plain) :
    (f.text ++ ['\n']).rdropWhile isTrailing = f.text := by
  rcases List.eq_nil_or_concat' f.fields with hnil | ⟨init, last, hlast⟩
  · -- no field: the line ends with the mnemonic
    have hpad := h.head_and.2.2.1 hnil
    apply rdropWhile_newline (x := []) _ h.mnemonic_ne_nil h.mnemonic_plain
    rw [LineFormat.text, hnil, List.rightpad, Nat.sub_eq_zero_of_le hpad]
    simp
  · obtain ⟨hfield, hplain⟩ := h.fieldText (p := last) (by rw [hlast]; simp)
    apply rdropWhile_newline (x := f.mnemonic.toList.rightpad f.width ' '
      ++ (init.map Compiler.fieldText).flatMap (' ' :: ·) ++ [' ']) _ hfield hplain
    rw [LineFormat.text, hlast]
    simp

theorem LineFormat.Plain.words (h : f.Plain) :
    wordsFrom isBlank [] f.text = f.mnemonic.toList :: f.fields.map Compiler.fieldText := by
  apply wordsFrom_padded (isWord_of_plain h.mnemonic_ne_nil h.mnemonic_plain) _
    (by decide)
  · intro w hw
    obtain ⟨p, hp, rfl⟩ := List.mem_map.mp hw
    exact isWord_of_plain (h.fieldText hp).1 (h.fieldText hp).2
  · intro c hc
    rw [List.eq_of_mem_replicate hc]
    decide

/-- The fields of a line, the last one of a key first. -/
def lookupField : List (String × List Char) → List Char → Option (List Char)
  | [], _ => none
  | p :: ps, k => (lookupField ps k).or (if k = p.1.toList then some p.2 else none)

theorem addToken_fieldText {insn : Insn} (hop : insn.op ≠ []) {p : String × List Char}
    (hkey : plainText p.1.toList = true) :
    insn.addToken (fieldText p) = insn.setField p.1.toList p.2 := by
  have heq : ∀ c ∈ p.1.toList, (c != '=') = true := by
    intro c hc
    rw [bne_iff_ne]
    rintro rfl
    exact (plainText_iff.mp hkey).2 hc
  have htake : (fieldText p).takeWhile (· != '=') = p.1.toList := by
    rw [fieldText, List.takeWhile_append_of_pos heq, List.takeWhile_cons_of_neg (by decide),
      List.append_nil]
  have hdrop : (fieldText p).dropWhile (· != '=') = '=' :: p.2 := by
    rw [fieldText, List.dropWhile_append_of_pos heq, List.dropWhile_cons_of_neg (by decide)]
  rw [Insn.addToken, if_neg hop, if_pos (by simp [fieldText]), htake, hdrop, List.tail_cons]

theorem foldl_addToken {ps : List (String × List Char)} (hkeys : ∀ p ∈ ps, plainText p.1.toList = true)
    {insn : Insn} (hop : insn.op ≠ []) :
    (ps.map fieldText).foldl Insn.addToken insn
      = ⟨insn.op, fun k => (lookupField ps k).or (insn.fields k)⟩ := by
  induction ps generalizing insn with
  | nil => rfl
  | cons p ps ih =>
      rw [List.map_cons, List.foldl_cons, addToken_fieldText hop (hkeys p (by simp)),
        ih (fun q hq => hkeys q (by simp [hq])) (show (insn.setField _ _).op ≠ [] from hop)]
      refine congrArg (Insn.mk insn.op) (funext fun k => ?_)
      rw [lookupField, Option.or_assoc]
      refine congrArg _ ?_
      rw [Insn.setField]
      dsimp only
      split
      · rfl
      · rfl

/-- **A line is parsed to its mnemonic and its fields.** -/
theorem LineFormat.Plain.parseLine (h : f.Plain) :
    parseLine (f.text ++ ['\n']) = ⟨f.mnemonic.toList, lookupField f.fields⟩ := by
  rw [Runtime.parseLine, h.trim, h.words, List.foldl_cons]
  have hfirst : Insn.addToken ⟨[], fun _ => none⟩ f.mnemonic.toList
      = ⟨f.mnemonic.toList, fun _ => none⟩ := rfl
  rw [hfirst, foldl_addToken (fun p hp => h.keys hp) h.mnemonic_ne_nil]
  refine congrArg (Insn.mk _) (funext fun k => ?_)
  rw [Option.or_none]

theorem lookupField_of_not_mem {ps : List (String × List Char)} {key : String}
    (hkey : key ∉ ps.map (·.1)) : lookupField ps key.toList = none := by
  induction ps with
  | nil => rfl
  | cons p ps ih =>
      rw [List.map_cons, List.mem_cons, not_or] at hkey
      rw [lookupField, ih hkey.2, if_neg fun h => hkey.1 (String.toList_inj.mp h),
        Option.or_none]

/-- With distinct keys a field is found. -/
theorem lookupField_of_mem {ps : List (String × List Char)}
    (hnodup : (ps.map (·.1)).Nodup) {key : String} {value : List Char}
    (hmem : (key, value) ∈ ps) : lookupField ps key.toList = some value := by
  induction ps with
  | nil => cases hmem
  | cons p ps ih =>
      rw [List.map_cons, List.nodup_cons] at hnodup
      rcases List.mem_cons.mp hmem with rfl | hmem
      · rw [lookupField, lookupField_of_not_mem hnodup.1, if_pos rfl, Option.none_or]
      · rw [lookupField, ih hnodup.2 hmem, Option.some_or]

theorem at_of_mem (h : f.Plain) {op : List Char} {key : String} {value : List Char}
    (hmem : (key, value) ∈ f.fields) :
    Insn.at ⟨op, lookupField f.fields⟩ key = .ok value := by
  unfold Insn.at
  dsimp only
  rw [lookupField_of_mem h.nodup hmem]

theorem hexAt_of_mem (h : f.Plain) {op : List Char} {key : String} {v : UInt32}
    (hmem : (key, hex v) ∈ f.fields) :
    Insn.hexAt ⟨op, lookupField f.fields⟩ key = .ok v := by
  have hv := v.toNat_lt
  rw [Insn.hexAt, at_of_mem h hmem]
  show Except.ok (UInt32.ofNat (strtoul (hexText v.toNat))) = _
  rw [strtoul_hexText (by omega), UInt32.ofNat_toNat]

theorem intAt_of_mem (h : f.Plain) {op : List Char} {key : String} {n : Nat}
    (hmem : (key, decimalText n) ∈ f.fields) (hn : n < 2 ^ 63) :
    Insn.intAt ⟨op, lookupField f.fields⟩ key = .ok (UInt32.ofNat n) := by
  rw [Insn.intAt, at_of_mem h hmem]
  show Except.ok (UInt32.ofInt (strtol (decimalText n))) = _
  rw [strtol_decimalText hn, UInt32.ofInt]
  refine congrArg Except.ok ?_
  apply UInt32.toNat_inj.mp
  rw [UInt32.toNat_ofNat', UInt32.toNat_ofNat']
  omega

theorem intAt_dec (h : f.Plain) {op : List Char} {key : String} {v : UInt32}
    (hmem : (key, dec v) ∈ f.fields) :
    Insn.intAt ⟨op, lookupField f.fields⟩ key = .ok v := by
  have hv := v.toNat_lt
  rw [intAt_of_mem h hmem (by omega), UInt32.ofNat_toNat]

theorem flagAt_of_mem (h : f.Plain) {op : List Char} {key : String} {b : Bool}
    (hmem : (key, dec (boolWord b)) ∈ f.fields) :
    Insn.flagAt ⟨op, lookupField f.fields⟩ key = .ok b := by
  rw [Insn.flagAt, at_of_mem h hmem]
  cases b
  · decide
  · decide

end Line

/-! ## Decoding -/

/-- A line `eclipse-run` can read: its numbers fit a `long`, and an ARGMAX has an
index. -/
def EasmLine.Readable : EasmLine → Prop
  | .dmaLoad _ _ _ rows cols srcStride dstStride
  | .dmaStore _ _ _ rows cols srcStride dstStride =>
      rows < 2 ^ 63 ∧ cols < 2 ^ 63 ∧ srcStride < 2 ^ 63 ∧ dstStride < 2 ^ 63
  | .reduce _ _ idx _ rows cols kind =>
      rows < 2 ^ 63 ∧ cols < 2 ^ 63
        ∧ (kind = ReduceKind.ARGMAX.toU32 → idx.isSome = true)
  | _ => True

/-- The instruction a line stands for, in 32-bit words. -/
def EasmLine.insn : EasmLine → EasmInsn
  | .dmaLoad descAddr sram addr rows cols srcStride dstStride =>
      .dmaLoad descAddr ⟨sram, addr, .ofNat rows, .ofNat cols, .ofNat srcStride,
        .ofNat dstStride⟩
  | .dmaStore descAddr sram addr rows cols srcStride dstStride =>
      .dmaStore descAddr ⟨sram, addr, .ofNat rows, .ofNat cols, .ofNat srcStride,
        .ofNat dstStride⟩
  | .matmul descAddr dst lhs rhs M N K acc transA transB =>
      .matmul descAddr ⟨dst, rhs, lhs, M, K, N, acc, transA, transB⟩
  | .ewise op descAddr dst lhs rhs rows cols blk stride =>
      .elementwise op descAddr ⟨dst, rhs, lhs, rows, cols, blk, stride⟩
  | .act descAddr dst src n kind => .act descAddr ⟨dst, src, n, kind⟩
  | .reduce descAddr dst idx src rows cols kind =>
      .reduce descAddr ⟨dst, if kind = ReduceKind.ARGMAX.toU32 then idx.getD 0 else 0,
        src, .ofNat rows, .ofNat cols, kind⟩
  | .sync => .sync

theorem plainValue_decimalText {n : Nat} (hn : n < 2 ^ 63) :
    PlainValue (decimalText n) := by
  refine ⟨fun c hc => digitValue_of_mem_decimalText hc, ?_⟩
  rw [decimalText, Nat.length_toDigits_le_iff (by omega) (by omega)]
  omega

theorem plainValue_dec (v : UInt32) : PlainValue (dec v) := by
  have hv := v.toNat_lt
  exact plainValue_decimalText (by omega)

theorem plainValue_hex (v : UInt32) : PlainValue (hex v) := by
  refine ⟨fun c hc => digitValue_of_mem_hexText hc, ?_⟩
  have hv := v.toNat_lt
  have hlen : (Nat.toDigits 16 v.toNat).length ≤ 8 :=
    (Nat.length_toDigits_le_iff (by omega) (by omega)).mpr (by omega)
  rw [hex, hexText, List.length_cons, List.length_cons]
  omega

theorem EasmLine.Readable.plain {line : EasmLine} (h : line.Readable) :
    line.format.Plain := by
  cases line with
  | dmaLoad descAddr sram addr rows cols srcStride dstStride =>
      have hhead : plainHead 15 "DMA_LOAD"
          ["desc", "sram", "ddr", "rows", "cols", "srcStride", "dstStride"] = true := by decide
      obtain ⟨hrows, hcols, hsrc, hdst⟩ := h
      exact ⟨hhead, by simp [format, plainValue_hex, plainValue_decimalText hrows,
        plainValue_decimalText hcols, plainValue_decimalText hsrc,
        plainValue_decimalText hdst]⟩
  | dmaStore descAddr sram addr rows cols srcStride dstStride =>
      have hhead : plainHead 15 "DMA_STORE"
          ["desc", "sram", "ddr", "rows", "cols", "srcStride", "dstStride"] = true := by decide
      obtain ⟨hrows, hcols, hsrc, hdst⟩ := h
      exact ⟨hhead, by simp [format, plainValue_hex, plainValue_decimalText hrows,
        plainValue_decimalText hcols, plainValue_decimalText hsrc,
        plainValue_decimalText hdst]⟩
  | matmul descAddr dst lhs rhs M N K acc transA transB =>
      have hhead : plainHead 14 "MATMUL"
          ["desc", "dst", "lhs", "rhs", "M", "N", "K", "acc", "ta", "tb"] = true := by decide
      exact ⟨hhead, by simp [format, plainValue_hex, plainValue_dec]⟩
  | ewise op descAddr dst lhs rhs rows cols blk stride =>
      have hhead : plainHead 15 (ewiseMnemonic op)
          ["desc", "dst", "lhs", "rhs", "rows", "cols", "blk", "stride"] = true := by
        cases op <;> decide
      exact ⟨hhead, by simp [format, plainValue_hex, plainValue_dec]⟩
  | act descAddr dst src n kind =>
      have hhead : plainHead 15 "ACT" ["desc", "dst", "src", "n", "kind"] = true := by decide
      exact ⟨hhead, by simp [format, plainValue_hex, plainValue_dec]⟩
  | reduce descAddr dst idx src rows cols kind =>
      obtain ⟨hrows, hcols, -⟩ := h
      cases idx with
      | some idx =>
          have hhead : plainHead 15 "REDUCE"
              ["desc", "dst", "idx", "src", "rows", "cols", "kind"] = true := by decide
          exact ⟨hhead, by simp [format, plainValue_hex, plainValue_dec,
            plainValue_decimalText hrows, plainValue_decimalText hcols]⟩
      | none =>
          have hhead : plainHead 15 "REDUCE"
              ["desc", "dst", "src", "rows", "cols", "kind"] = true := by decide
          exact ⟨hhead, by simp [format, plainValue_hex, plainValue_dec,
            plainValue_decimalText hrows, plainValue_decimalText hcols]⟩
  | sync =>
      have hhead : plainHead 0 "SYNC" [] = true := by decide
      exact ⟨hhead, by simp [format]⟩

theorem decode_ewise (op : EwiseOp) {fields : List Char → Option (List Char)} :
    Insn.decode ⟨(ewiseMnemonic op).toList, fields⟩ = (do
      let descAddr ← Insn.hexAt ⟨(ewiseMnemonic op).toList, fields⟩ "desc"
      let desc ← Insn.ewiseParam ⟨(ewiseMnemonic op).toList, fields⟩
      return .elementwise op descAddr desc) := by
  cases op <;> rfl

/-- The fields of both DMA lines. -/
theorem dmaParam_of_fields {f : LineFormat} (h : f.Plain) {op : List Char}
    (sram addr : UInt32) {rows cols srcStride dstStride : Nat}
    (hbounds : rows < 2 ^ 63 ∧ cols < 2 ^ 63 ∧ srcStride < 2 ^ 63 ∧ dstStride < 2 ^ 63)
    (hfields : [("sram", hex sram), ("ddr", hex addr), ("rows", decimalText rows),
      ("cols", decimalText cols), ("srcStride", decimalText srcStride),
      ("dstStride", decimalText dstStride)] ⊆ f.fields) :
    Insn.dmaParam ⟨op, lookupField f.fields⟩
      = .ok ⟨sram, addr, .ofNat rows, .ofNat cols, .ofNat srcStride,
        .ofNat dstStride⟩ := by
  obtain ⟨hrows, hcols, hsrc, hdst⟩ := hbounds
  rw [Insn.dmaParam, hexAt_of_mem h (v := sram) (hfields (by simp)), ok_bind,
    hexAt_of_mem h (v := addr) (hfields (by simp)), ok_bind,
    intAt_of_mem h (n := rows) (hfields (by simp)) hrows, ok_bind,
    intAt_of_mem h (n := cols) (hfields (by simp)) hcols, ok_bind,
    intAt_of_mem h (n := srcStride) (hfields (by simp)) hsrc, ok_bind,
    intAt_of_mem h (n := dstStride) (hfields (by simp)) hdst, ok_bind]
  rfl

/-- **A line is decoded to the instruction it stands for.** -/
theorem EasmLine.Readable.decode {line : EasmLine} (h : line.Readable) :
    (parseLine (line.format.text ++ ['\n'])).decode = .ok line.insn := by
  have hp := h.plain
  rw [hp.parseLine]
  cases line with
  | dmaLoad descAddr sram addr rows cols srcStride dstStride =>
      refine decode_dmaLoad.trans ?_
      rw [hexAt_of_mem hp (v := descAddr) (by simp [format]), ok_bind,
        dmaParam_of_fields hp sram addr h (by simp [format]), ok_bind]
      rfl
  | dmaStore descAddr sram addr rows cols srcStride dstStride =>
      refine decode_dmaStore.trans ?_
      rw [hexAt_of_mem hp (v := descAddr) (by simp [format]), ok_bind,
        dmaParam_of_fields hp sram addr h (by simp [format]), ok_bind]
      rfl
  | matmul descAddr dst lhs rhs M N K acc transA transB =>
      refine decode_matmul.trans ?_
      rw [hexAt_of_mem hp (v := descAddr) (by simp [format]), ok_bind, Insn.matmulParam,
        hexAt_of_mem hp (v := dst) (by simp [format]), ok_bind,
        hexAt_of_mem hp (v := rhs) (by simp [format]), ok_bind,
        hexAt_of_mem hp (v := lhs) (by simp [format]), ok_bind,
        intAt_dec hp (v := M) (by simp [format]), ok_bind,
        intAt_dec hp (v := N) (by simp [format]), ok_bind,
        intAt_dec hp (v := K) (by simp [format]), ok_bind,
        intAt_dec hp (v := acc) (by simp [format]), ok_bind,
        flagAt_of_mem hp (b := transA) (by simp [format]), ok_bind,
        flagAt_of_mem hp (b := transB) (by simp [format]), ok_bind]
      rfl
  | ewise op descAddr dst lhs rhs rows cols blk stride =>
      refine (decode_ewise op).trans ?_
      rw [hexAt_of_mem hp (v := descAddr) (by simp [format]), ok_bind, Insn.ewiseParam,
        hexAt_of_mem hp (v := dst) (by simp [format]), ok_bind,
        hexAt_of_mem hp (v := rhs) (by simp [format]), ok_bind,
        hexAt_of_mem hp (v := lhs) (by simp [format]), ok_bind,
        intAt_dec hp (v := rows) (by simp [format]), ok_bind,
        intAt_dec hp (v := cols) (by simp [format]), ok_bind,
        intAt_dec hp (v := blk) (by simp [format]), ok_bind,
        intAt_dec hp (v := stride) (by simp [format]), ok_bind]
      rfl
  | act descAddr dst src n kind =>
      refine decode_act.trans ?_
      rw [hexAt_of_mem hp (v := descAddr) (by simp [format]), ok_bind, Insn.actParam,
        hexAt_of_mem hp (v := dst) (by simp [format]), ok_bind,
        hexAt_of_mem hp (v := src) (by simp [format]), ok_bind,
        intAt_dec hp (v := n) (by simp [format]), ok_bind,
        intAt_dec hp (v := kind) (by simp [format]), ok_bind]
      rfl
  | reduce descAddr dst idx src rows cols kind =>
      obtain ⟨hrows, hcols, hargmax⟩ := h
      cases idx with
      | some idx =>
          refine decode_reduce.trans ?_
          rw [hexAt_of_mem hp (v := descAddr) (by simp [format]), ok_bind,
            Insn.reduceParam, hexAt_of_mem hp (v := dst) (by simp [format]), ok_bind,
            hexAt_of_mem hp (v := src) (by simp [format]), ok_bind,
            intAt_of_mem hp (n := rows) (by simp [format]) hrows, ok_bind,
            intAt_of_mem hp (n := cols) (by simp [format]) hcols, ok_bind,
            intAt_dec hp (v := kind) (by simp [format]), ok_bind,
            hexAt_of_mem hp (v := idx) (by simp [format])]
          by_cases hkind : kind = ReduceKind.ARGMAX.toU32
          · rw [insn, if_pos hkind, if_pos hkind]
            rfl
          · rw [insn, if_neg hkind, if_neg hkind]
            rfl
      | none =>
          have hkind : kind ≠ ReduceKind.ARGMAX.toU32 := fun hk => by cases hargmax hk
          refine decode_reduce.trans ?_
          rw [hexAt_of_mem hp (v := descAddr) (by simp [format]), ok_bind,
            Insn.reduceParam, hexAt_of_mem hp (v := dst) (by simp [format]), ok_bind,
            hexAt_of_mem hp (v := src) (by simp [format]), ok_bind,
            intAt_of_mem hp (n := rows) (by simp [format]) hrows, ok_bind,
            intAt_of_mem hp (n := cols) (by simp [format]) hcols, ok_bind,
            intAt_dec hp (v := kind) (by simp [format]), ok_bind, if_neg hkind, insn,
            if_neg hkind]
          rfl
  | sync => exact decode_sync

/-! ## Reading the file back -/

theorem LineFormat.Plain.newline_not_mem {f : LineFormat} (h : f.Plain) :
    '\n' ∉ f.text := by
  intro hmem
  have hnewline : ¬ isTrailing '\n' = false := by decide
  rw [LineFormat.text, List.mem_append, List.rightpad, List.mem_append,
    List.mem_replicate, List.mem_flatMap] at hmem
  rcases hmem with (hm | ⟨-, hm⟩) | ⟨w, hw, hm⟩
  · exact hnewline (h.mnemonic_plain _ hm)
  · exact absurd hm (by decide)
  · obtain ⟨p, hp, rfl⟩ := List.mem_map.mp hw
    rcases List.mem_cons.mp hm with hm | hm
    · exact absurd hm (by decide)
    · exact hnewline ((h.fieldText hp).2 _ hm)

theorem length_fields_le {ps : List (String × List Char)}
    (hkeys : ∀ p ∈ ps, p.1.toList.length ≤ 9) (hvalues : ∀ p ∈ ps, PlainValue p.2) :
    ((ps.map fieldText).flatMap (' ' :: ·)).length ≤ ps.length * 31 := by
  induction ps with
  | nil => simp
  | cons p ps ih =>
      have hkey := hkeys p (by simp)
      have hvalue := (hvalues p (by simp)).2
      have := ih (fun q hq => hkeys q (by simp [hq])) fun q hq => hvalues q (by simp [hq])
      rw [List.map_cons, List.flatMap_cons, List.length_append, List.length_cons, fieldText,
        List.length_append, List.length_cons, List.length_cons]
      omega

/-- A line fits the buffer. -/
theorem LineFormat.Plain.length_le {f : LineFormat} (h : f.Plain) :
    f.text.length + 2 ≤ 4096 := by
  obtain ⟨-, ⟨hlen, hwidth⟩, -, hkeys, -, hcount⟩ := h.head_and
  have hfields := length_fields_le (fun p hp => (hkeys p hp).2)
    fun p hp => h.values p.2 (List.mem_map_of_mem hp)
  rw [LineFormat.text, List.length_append, List.rightpad, List.length_append,
    List.length_replicate]
  omega

/-- **The file is read back**, one instruction per line. -/
theorem decodeInsns_easmText {lines : List EasmLine} (h : ∀ line ∈ lines, line.Readable) :
    decodeInsns (parseEasm (easmText lines)) = .ok (lines.map EasmLine.insn) := by
  have hlines : fgetsLines 4096 [] (easmText lines)
      = lines.map fun line => line.format.text ++ ['\n'] := by
    have := @fgetsLines_flatMap 4096 (lines.map (·.format.text)) (by
      intro body hbody
      obtain ⟨line, hline, rfl⟩ := List.mem_map.mp hbody
      have hp := (h line hline).plain
      exact ⟨hp.newline_not_mem, hp.length_le⟩)
    rwa [List.flatMap_map, List.map_map] at this
  have hparse : parseEasm (easmText lines)
      = lines.map fun line => parseLine (line.format.text ++ ['\n']) := by
    rw [parseEasm, hlines, List.filter_eq_self.mpr, List.map_map]
    · rfl
    · intro s hs
      obtain ⟨line, hline, rfl⟩ := List.mem_map.mp hs
      have hp := (h line hline).plain
      rw [hp.trim, Bool.not_eq_true', List.isEmpty_eq_false_iff]
      intro hnil
      have := List.append_eq_nil_iff.mp hnil
      exact hp.mnemonic_ne_nil (List.append_eq_nil_iff.mp this.1).1
  rw [hparse, decodeInsns]
  clear hlines hparse
  induction lines with
  | nil => rfl
  | cons line lines ih =>
      rw [List.map_cons, List.mapM_cons, (h line (by simp)).decode, ok_bind,
        ih fun l hl => h l (by simp [hl]), ok_bind]
      rfl

end EclipseNpu.Compiler
