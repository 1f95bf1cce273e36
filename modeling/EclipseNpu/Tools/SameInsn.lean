import EclipseNpu.Runtime.Stream
import EclipseNpu.Tools.HazardParse

/-!
# Tools — SameInsn

One instruction in the hands of the checker and of `eclipse-run`. Each has an
opcode and the fields it has found on a line; `runs_iff` says when the runner
takes them for what the checker has read (`Alike`): the same opcode, one value
modulo `2 ^ 32` for each number that both read, the fields that only the
runner asks for, and a place for the descriptor.
-/

namespace EclipseNpu.Tools

open EclipseNpu.Lib EclipseNpu.Runtime
open HazardParse (CheckedInsn DmaNumbers MatmulNumbers EwiseNumbers ActNumbers
  ReduceNumbers)

/-! ## The same instruction -/

def sameDma (c : DmaNumbers) (p : DMAParam) : Prop :=
  p.sramAddr = UInt32.ofInt c.sram ∧ p.ddrAddr = UInt32.ofInt c.ddr
    ∧ p.rows = UInt32.ofInt c.rows ∧ p.cols = UInt32.ofInt c.cols
    ∧ p.srcStride = UInt32.ofInt c.srcStride ∧ p.dstStride = UInt32.ofInt c.dstStride

def sameMatmul (c : MatmulNumbers) (p : MatmulParam) : Prop :=
  p.dstAddr = UInt32.ofInt c.dst ∧ p.lhsAddr = UInt32.ofInt c.lhs
    ∧ p.rhsAddr = UInt32.ofInt c.rhs ∧ p.M = UInt32.ofInt c.m ∧ p.N = UInt32.ofInt c.n
    ∧ p.K = UInt32.ofInt c.k ∧ p.accumulate = UInt32.ofInt c.acc

def sameEwise (c : EwiseNumbers) (p : EwiseParam) : Prop :=
  p.dstAddr = UInt32.ofInt c.dst ∧ p.lhsAddr = UInt32.ofInt c.lhs
    ∧ p.rhsAddr = UInt32.ofInt c.rhs ∧ p.rows = UInt32.ofInt c.rows
    ∧ p.cols = UInt32.ofInt c.cols ∧ p.rhsBlk = UInt32.ofInt c.blk
    ∧ p.rhsStride = UInt32.ofInt c.stride

def sameAct (c : ActNumbers) (p : ActParam) : Prop :=
  p.dstAddr = UInt32.ofInt c.dst ∧ p.srcAddr = UInt32.ofInt c.src
    ∧ p.n = UInt32.ofInt c.n

/-- `idx` is a number of both tools when the checker reads it. -/
def sameReduce (c : ReduceNumbers) (p : ReduceParam) : Prop :=
  p.dstAddr = UInt32.ofInt c.dst ∧ p.srcAddr = UInt32.ofInt c.src
    ∧ p.rows = UInt32.ofInt c.rows ∧ p.cols = UInt32.ofInt c.cols
    ∧ p.kind = UInt32.ofInt c.kind ∧ ∀ i, c.idx = some i → p.idxAddr = UInt32.ofInt i

/-- The same opcode, and the same value modulo `2 ^ 32` in every field that
both tools read. -/
def SameInsn : CheckedInsn → EasmInsn → Prop
  | .dmaLoad c, .dmaLoad _ p => sameDma c p
  | .dmaStore c, .dmaStore _ p => sameDma c p
  | .matmul c, .matmul _ p => sameMatmul c p
  | .elementwise op c, .elementwise op' _ p => op' = op ∧ sameEwise c p
  | .act c, .act _ p => sameAct c p
  | .reduce c, .reduce _ p => sameReduce c p
  | .sync, .sync => True
  | _, _ => False

/-- The runner takes an instruction for what the checker read. -/
def Runs (g : Insn) (c : CheckedInsn) : Prop :=
  ∃ x, g.decode = .ok x ∧ SlotInDdr x ∧ SameInsn c x

/-! ## The fields of an instruction -/

/-- The addresses both tools read. -/
def addressKeys (f : Insn) : List String :=
  if f.op = "DMA_LOAD".toList ∨ f.op = "DMA_STORE".toList then ["sram", "ddr"]
  else if f.op = "MATMUL".toList then ["dst", "lhs", "rhs"]
  else if f.op = "ELEMENTWISE_ADD".toList ∨ f.op = "ELEMENTWISE_SUB".toList
      ∨ f.op = "ELEMENTWISE_MUL".toList ∨ f.op = "ELEMENTWISE_DIV".toList then
    ["dst", "lhs", "rhs"]
  else if f.op = "ACT".toList then ["dst", "src"]
  else if f.op = "REDUCE".toList then
    ["dst", "src"] ++ if HazardParse.integer f "kind" = some 3 then ["idx"] else []
  else []

/-- The other numbers both tools read. -/
def integerKeys (f : Insn) : List String :=
  if f.op = "DMA_LOAD".toList ∨ f.op = "DMA_STORE".toList then
    ["rows", "cols", "srcStride", "dstStride"]
  else if f.op = "MATMUL".toList then ["M", "N", "K", "acc"]
  else if f.op = "ELEMENTWISE_ADD".toList ∨ f.op = "ELEMENTWISE_SUB".toList
      ∨ f.op = "ELEMENTWISE_MUL".toList ∨ f.op = "ELEMENTWISE_DIV".toList then
    ["rows", "cols", "blk", "stride"]
  else if f.op = "ACT".toList then ["n"]
  else if f.op = "REDUCE".toList then ["rows", "cols", "kind"]
  else []

/-- The fields only the runner asks for, next to `desc`. -/
def runnerKeys (f : Insn) : List String :=
  if f.op = "MATMUL".toList then ["ta", "tb"]
  else if f.op = "ACT".toList then ["kind"]
  else if f.op = "REDUCE".toList then
    if (HazardParse.integer f "kind").map UInt32.ofInt = some 3 then ["idx"] else []
  else []

/-- The bytes of the descriptor. -/
def descSize (f : Insn) : Nat :=
  if f.op = "DMA_LOAD".toList ∨ f.op = "DMA_STORE".toList then 24
  else if f.op = "REDUCE".toList then 24
  else if f.op = "MATMUL".toList then 32
  else if f.op = "ACT".toList then 32
  else 28

/-- One address for the checker, which has read `f`, and the runner, which has
read `g`. -/
def SameAddress (f g : Insn) (key : String) : Prop :=
  ∀ v, HazardParse.address f key = some v →
    ∃ s, g.fields key.toList = some s ∧ hexVal s = UInt32.ofInt v

/-- One number for both. -/
def SameInteger (f g : Insn) (key : String) : Prop :=
  ∀ v, HazardParse.integer f key = some v →
    ∃ s, g.fields key.toList = some s ∧ UInt32.ofInt (intVal s) = UInt32.ofInt v

/-- The runner finds a place for the descriptor. -/
def DescInDdr (f g : Insn) : Prop :=
  ∃ s, g.fields "desc".toList = some s ∧ DDR_ADDR.toNat ≤ (hexVal s).toNat
    ∧ (hexVal s).toNat + descSize f ≤ ddrEnd

/-- **The same line for both tools**, as far as they look at it. -/
structure Alike (f g : Insn) : Prop where
  op : g.op = f.op
  addresses : ∀ key ∈ addressKeys f, SameAddress f g key
  integers : ∀ key ∈ integerKeys f, SameInteger f g key
  fields : ∀ key ∈ runnerKeys f, (g.fields key.toList).isSome
  desc : f.op ≠ "SYNC".toList → DescInDdr f g

/-! ## One field -/

section Field

variable {f g : Insn} {key : String} {v : Int}

theorem at_ok_iff {s : List Char} :
    g.at key = .ok s ↔ g.fields key.toList = some s := by
  rw [Insn.at]
  cases g.fields key.toList <;> simp

theorem map_ok_iff {ε α β : Type} {h : α → β} {x : Except ε α} {b : β} :
    h <$> x = .ok b ↔ ∃ a, x = .ok a ∧ h a = b := by
  cases x with
  | error e => simp
  | ok a => simp

theorem sameAddress_iff (hv : HazardParse.address f key = some v) :
    SameAddress f g key ↔ g.hexAt key = .ok (UInt32.ofInt v) := by
  simp only [SameAddress, hv, Option.some_inj, forall_eq', Insn.hexAt, map_ok_iff, at_ok_iff]

theorem sameInteger_iff (hv : HazardParse.integer f key = some v) :
    SameInteger f g key ↔ g.intAt key = .ok (UInt32.ofInt v) := by
  simp only [SameInteger, hv, Option.some_inj, forall_eq', Insn.intAt, map_ok_iff, at_ok_iff]

/-- A field that is there can be read as anything. -/
theorem isSome_iff_at {β : Type} (h : List Char → β) :
    (g.fields key.toList).isSome ↔ ∃ w, h <$> g.at key = .ok w := by
  constructor
  · intro hsome
    obtain ⟨s, hs⟩ := Option.isSome_iff_exists.mp hsome
    exact ⟨h s, map_ok_iff.mpr ⟨s, at_ok_iff.mpr hs, rfl⟩⟩
  · rintro ⟨w, hw⟩
    obtain ⟨s, hs, -⟩ := map_ok_iff.mp hw
    rw [at_ok_iff.mp hs]
    rfl

theorem isSome_iff_hexAt : (g.fields key.toList).isSome ↔ ∃ w, g.hexAt key = .ok w :=
  isSome_iff_at _

theorem isSome_iff_intAt : (g.fields key.toList).isSome ↔ ∃ w, g.intAt key = .ok w :=
  isSome_iff_at _

theorem isSome_iff_flagAt : (g.fields key.toList).isSome ↔ ∃ b, g.flagAt key = .ok b :=
  isSome_iff_at _

end Field

/-! ## The parameters of a descriptor -/

section Param

variable {f g : Insn}

theorem dmaParam_iff {c : DmaNumbers} (hc : HazardParse.dmaNumbers f = some c) :
    (∃ p, g.dmaParam = .ok p ∧ sameDma c p) ↔
      (∀ key ∈ ["sram", "ddr"], SameAddress f g key)
        ∧ ∀ key ∈ ["rows", "cols", "srcStride", "dstStride"], SameInteger f g key := by
  simp only [HazardParse.dmaNumbers, Option.bind_eq_bind, Option.bind_eq_some_iff,
    Option.pure_def, Option.some.injEq] at hc
  obtain ⟨sram, hsram, ddr, hddr, rows, hrows, cols, hcols, srcStride, hsrc, dstStride, hdst,
    rfl⟩ := hc
  simp only [List.forall_mem_cons, sameAddress_iff hsram, sameAddress_iff hddr,
    sameInteger_iff hrows, sameInteger_iff hcols, sameInteger_iff hsrc, sameInteger_iff hdst,
    Insn.dmaParam, bind_ok_iff]
  constructor
  · rintro ⟨p, ⟨_, h₁, _, h₂, _, h₃, _, h₄, _, h₅, _, h₆, hp⟩, hsame⟩
    cases hp
    obtain ⟨rfl, rfl, rfl, rfl, rfl, rfl⟩ := hsame
    exact ⟨⟨h₁, h₂, by simp⟩, h₃, h₄, h₅, h₆, by simp⟩
  · rintro ⟨⟨h₁, h₂, -⟩, h₃, h₄, h₅, h₆, -⟩
    exact ⟨_, ⟨_, h₁, _, h₂, _, h₃, _, h₄, _, h₅, _, h₆, rfl⟩, rfl, rfl, rfl, rfl, rfl, rfl⟩

theorem matmulParam_iff {c : MatmulNumbers} (hc : HazardParse.matmulNumbers f = some c) :
    (∃ p, g.matmulParam = .ok p ∧ sameMatmul c p) ↔
      (∀ key ∈ ["dst", "lhs", "rhs"], SameAddress f g key)
        ∧ (∀ key ∈ ["M", "N", "K", "acc"], SameInteger f g key)
        ∧ ∀ key ∈ ["ta", "tb"], (g.fields key.toList).isSome := by
  simp only [HazardParse.matmulNumbers, Option.bind_eq_bind, Option.bind_eq_some_iff,
    Option.pure_def, Option.some.injEq] at hc
  obtain ⟨dst, hdst, lhs, hlhs, rhs, hrhs, m, hm, n, hn, k, hk, acc, hacc, rfl⟩ := hc
  simp only [List.forall_mem_cons, sameAddress_iff hdst, sameAddress_iff hlhs,
    sameAddress_iff hrhs, sameInteger_iff hm, sameInteger_iff hn, sameInteger_iff hk,
    sameInteger_iff hacc, isSome_iff_flagAt, Insn.matmulParam, bind_ok_iff]
  constructor
  · rintro ⟨p, ⟨_, h₁, _, h₂, _, h₃, _, h₄, _, h₅, _, h₆, _, h₇, ta, h₈, tb, h₉, hp⟩, hsame⟩
    cases hp
    obtain ⟨rfl, rfl, rfl, rfl, rfl, rfl, rfl⟩ := hsame
    exact ⟨⟨h₁, h₃, h₂, by simp⟩, ⟨h₄, h₅, h₆, h₇, by simp⟩, ⟨ta, h₈⟩, ⟨tb, h₉⟩, by simp⟩
  · rintro ⟨⟨h₁, h₃, h₂, -⟩, ⟨h₄, h₅, h₆, h₇, -⟩, ⟨ta, h₈⟩, ⟨tb, h₉⟩, -⟩
    exact ⟨_, ⟨_, h₁, _, h₂, _, h₃, _, h₄, _, h₅, _, h₆, _, h₇, ta, h₈, tb, h₉, rfl⟩,
      rfl, rfl, rfl, rfl, rfl, rfl, rfl⟩

theorem ewiseParam_iff {c : EwiseNumbers} (hc : HazardParse.ewiseNumbers f = some c) :
    (∃ p, g.ewiseParam = .ok p ∧ sameEwise c p) ↔
      (∀ key ∈ ["dst", "lhs", "rhs"], SameAddress f g key)
        ∧ ∀ key ∈ ["rows", "cols", "blk", "stride"], SameInteger f g key := by
  simp only [HazardParse.ewiseNumbers, Option.bind_eq_bind, Option.bind_eq_some_iff,
    Option.pure_def, Option.some.injEq] at hc
  obtain ⟨dst, hdst, lhs, hlhs, rhs, hrhs, rows, hrows, cols, hcols, blk, hblk, stride, hstride,
    rfl⟩ := hc
  simp only [List.forall_mem_cons, sameAddress_iff hdst, sameAddress_iff hlhs,
    sameAddress_iff hrhs, sameInteger_iff hrows, sameInteger_iff hcols, sameInteger_iff hblk,
    sameInteger_iff hstride, Insn.ewiseParam, bind_ok_iff]
  constructor
  · rintro ⟨p, ⟨_, h₁, _, h₂, _, h₃, _, h₄, _, h₅, _, h₆, _, h₇, hp⟩, hsame⟩
    cases hp
    obtain ⟨rfl, rfl, rfl, rfl, rfl, rfl, rfl⟩ := hsame
    exact ⟨⟨h₁, h₃, h₂, by simp⟩, h₄, h₅, h₆, h₇, by simp⟩
  · rintro ⟨⟨h₁, h₃, h₂, -⟩, h₄, h₅, h₆, h₇, -⟩
    exact ⟨_, ⟨_, h₁, _, h₂, _, h₃, _, h₄, _, h₅, _, h₆, _, h₇, rfl⟩,
      rfl, rfl, rfl, rfl, rfl, rfl, rfl⟩

theorem actParam_iff {c : ActNumbers} (hc : HazardParse.actNumbers f = some c) :
    (∃ p, g.actParam = .ok p ∧ sameAct c p) ↔
      (∀ key ∈ ["dst", "src"], SameAddress f g key)
        ∧ (∀ key ∈ ["n"], SameInteger f g key)
        ∧ ∀ key ∈ ["kind"], (g.fields key.toList).isSome := by
  simp only [HazardParse.actNumbers, Option.bind_eq_bind, Option.bind_eq_some_iff,
    Option.pure_def, Option.some.injEq] at hc
  obtain ⟨dst, hdst, src, hsrc, n, hn, rfl⟩ := hc
  simp only [List.forall_mem_cons, sameAddress_iff hdst, sameAddress_iff hsrc,
    sameInteger_iff hn, isSome_iff_intAt, Insn.actParam, bind_ok_iff]
  constructor
  · rintro ⟨p, ⟨_, h₁, _, h₂, _, h₃, kind, h₄, hp⟩, hsame⟩
    cases hp
    obtain ⟨rfl, rfl, rfl⟩ := hsame
    exact ⟨⟨h₁, h₂, by simp⟩, ⟨h₃, by simp⟩, ⟨kind, h₄⟩, by simp⟩
  · rintro ⟨⟨h₁, h₂, -⟩, ⟨h₃, -⟩, ⟨kind, h₄⟩, -⟩
    exact ⟨_, ⟨_, h₁, _, h₂, _, h₃, kind, h₄, rfl⟩, rfl, rfl, rfl⟩

/-- The index address: the checker reads it for kind 3, the runner for every
kind that is 3 modulo `2 ^ 32`. -/
theorem idxAddr_iff {kind : Int} {idx : Option Int}
    (hidx : HazardParse.argmaxIdx f kind = some idx) :
    (∃ w, (if UInt32.ofInt kind = ReduceKind.ARGMAX.toU32 then g.hexAt "idx" else .ok 0)
        = .ok w ∧ ∀ i, idx = some i → w = UInt32.ofInt i) ↔
      (kind = 3 → SameAddress f g "idx")
        ∧ (UInt32.ofInt kind = 3 → (g.fields "idx".toList).isSome) := by
  have hargmax : ReduceKind.ARGMAX.toU32 = 3 := rfl
  rw [hargmax, isSome_iff_hexAt]
  unfold HazardParse.argmaxIdx at hidx
  by_cases hkind : kind = 3
  · -- both tools read it
    subst hkind
    rw [if_pos rfl] at hidx
    obtain ⟨i, hi, rfl⟩ := Option.map_eq_some_iff.mp hidx
    rw [if_pos (by decide), sameAddress_iff hi]
    constructor
    · rintro ⟨w, hw, hsame⟩
      have hw' := hsame i rfl
      subst hw'
      exact ⟨fun _ => hw, fun _ => ⟨_, hw⟩⟩
    · rintro ⟨h, -⟩
      exact ⟨_, h rfl, fun j hj => by rw [Option.some.inj hj]⟩
  · rw [if_neg hkind, Option.some_inj] at hidx
    subst hidx
    by_cases hword : UInt32.ofInt kind = 3
    · -- only the runner does
      rw [if_pos hword]
      constructor
      · rintro ⟨w, hw, -⟩
        exact ⟨fun h => absurd h hkind, fun _ => ⟨w, hw⟩⟩
      · rintro ⟨-, h⟩
        obtain ⟨w, hw⟩ := h hword
        exact ⟨w, hw, fun i hi => by cases hi⟩
    · rw [if_neg hword]
      constructor
      · intro _
        exact ⟨fun h => absurd h hkind, fun h => absurd h hword⟩
      · intro _
        exact ⟨0, rfl, fun i hi => by cases hi⟩

theorem reduceParam_eq : g.reduceParam = (do
    let dstAddr ← g.hexAt "dst"
    let srcAddr ← g.hexAt "src"
    let rows ← g.intAt "rows"
    let cols ← g.intAt "cols"
    let kind ← g.intAt "kind"
    (if kind = ReduceKind.ARGMAX.toU32 then g.hexAt "idx" else .ok 0) >>= fun idxAddr =>
      return { dstAddr, idxAddr, srcAddr, rows, cols, kind }) := by
  unfold Insn.reduceParam
  refine congrArg (g.hexAt "dst" >>= ·) (funext fun dstAddr => ?_)
  refine congrArg (g.hexAt "src" >>= ·) (funext fun srcAddr => ?_)
  refine congrArg (g.intAt "rows" >>= ·) (funext fun rows => ?_)
  refine congrArg (g.intAt "cols" >>= ·) (funext fun cols => ?_)
  refine congrArg (g.intAt "kind" >>= ·) (funext fun kind => ?_)
  split_ifs <;> rfl

theorem reduceParam_iff {c : ReduceNumbers} (hc : HazardParse.reduceNumbers f = some c) :
    (∃ p, g.reduceParam = .ok p ∧ sameReduce c p) ↔
      (∀ key ∈ ["dst", "src"] ++ if HazardParse.integer f "kind" = some 3 then ["idx"] else [],
          SameAddress f g key)
        ∧ (∀ key ∈ ["rows", "cols", "kind"], SameInteger f g key)
        ∧ ∀ key ∈ if (HazardParse.integer f "kind").map UInt32.ofInt = some 3 then ["idx"]
          else [], (g.fields key.toList).isSome := by
  simp only [HazardParse.reduceNumbers, Option.bind_eq_bind, Option.bind_eq_some_iff,
    Option.pure_def, Option.some.injEq] at hc
  obtain ⟨dst, hdst, src, hsrc, rows, hrows, cols, hcols, kind, hkind, idx, hidx, rfl⟩ := hc
  have haddress : (∀ key ∈ ["dst", "src"] ++ if some kind = some 3 then ["idx"] else [],
      SameAddress f g key) ↔ g.hexAt "dst" = .ok (UInt32.ofInt dst)
        ∧ g.hexAt "src" = .ok (UInt32.ofInt src) ∧ (kind = 3 → SameAddress f g "idx") := by
    by_cases h3 : kind = 3 <;> simp [h3, sameAddress_iff hdst, sameAddress_iff hsrc]
  have hrunner : (∀ key ∈ if (some kind).map UInt32.ofInt = some 3 then ["idx"] else [],
      (g.fields key.toList).isSome) ↔
      (UInt32.ofInt kind = 3 → (g.fields "idx".toList).isSome) := by
    by_cases hword : UInt32.ofInt kind = 3 <;> simp [hword]
  rw [hkind, haddress, hrunner]
  simp only [List.forall_mem_cons, sameInteger_iff hrows, sameInteger_iff hcols,
    sameInteger_iff hkind, reduceParam_eq, bind_ok_iff]
  have hidxAddr := idxAddr_iff (g := g) hidx
  constructor
  · rintro ⟨p, ⟨_, h₁, _, h₂, _, h₃, _, h₄, _, h₅, idxAddr, h₆, hp⟩, hsame⟩
    cases hp
    obtain ⟨rfl, rfl, rfl, rfl, rfl, hsame⟩ := hsame
    obtain ⟨haddr, hfield⟩ := hidxAddr.mp ⟨idxAddr, h₆, hsame⟩
    exact ⟨⟨h₁, h₂, haddr⟩, ⟨h₃, h₄, h₅, by simp⟩, hfield⟩
  · rintro ⟨⟨h₁, h₂, haddr⟩, ⟨h₃, h₄, h₅, -⟩, hfield⟩
    obtain ⟨idxAddr, h₆, hsame⟩ := hidxAddr.mpr ⟨haddr, hfield⟩
    exact ⟨_, ⟨_, h₁, _, h₂, _, h₃, _, h₄, _, h₅, idxAddr, h₆, rfl⟩,
      rfl, rfl, rfl, rfl, rfl, hsame⟩

end Param

/-! ## One opcode -/

section Opcode

variable {f g : Insn}

/-- A descriptor needs a slot and its own fields. -/
theorem runs_desc (f : Insn) {P : Type} {param : Except DecodeError P} {mk : UInt32 → P → EasmInsn}
    {c : CheckedInsn} (same : P → Prop)
    (hdecode : g.decode = (do
      let descAddr ← g.hexAt "desc"
      let desc ← param
      return mk descAddr desc))
    (hslot : ∀ d p, SlotInDdr (mk d p) ↔
      DDR_ADDR.toNat ≤ d.toNat ∧ d.toNat + descSize f ≤ ddrEnd)
    (hsame : ∀ d p, SameInsn c (mk d p) ↔ same p) :
    Runs g c ↔ DescInDdr f g ∧ ∃ p, param = .ok p ∧ same p := by
  have hdesc : ∀ d, g.hexAt "desc" = .ok d
      ↔ ∃ s, g.fields "desc".toList = some s ∧ hexVal s = d := fun d => by
    simp only [Insn.hexAt, map_ok_iff, at_ok_iff]
  simp only [Runs, hdecode, bind_ok_iff, hdesc]
  constructor
  · rintro ⟨x, ⟨d, ⟨s, hs, rfl⟩, p, hp, hx⟩, hx', hx''⟩
    cases hx
    exact ⟨⟨s, hs, (hslot _ _).mp hx'⟩, p, hp, (hsame _ _).mp hx''⟩
  · rintro ⟨⟨s, hs, hrange⟩, p, hp, hp'⟩
    exact ⟨_, ⟨_, ⟨s, hs, rfl⟩, p, hp, rfl⟩, (hslot _ _).mpr hrange, (hsame _ _).mpr hp'⟩

theorem slotInDdr_iff {x : EasmInsn} (hx : x.isSync = false)
    (hsize : x.descBytes.length = descSize f) :
    SlotInDdr x ↔
      DDR_ADDR.toNat ≤ x.desc.toNat ∧ x.desc.toNat + descSize f ≤ ddrEnd := by
  rw [SlotInDdr, hsize]
  exact ⟨fun h => h hx, fun h _ => h⟩

variable {fields fields' : List Char → Option (List Char)}

/-- With a descriptor and the same opcode. -/
theorem alike_iff {op : List Char} (hop : op ≠ "SYNC".toList) :
    Alike ⟨op, fields⟩ ⟨op, fields'⟩ ↔ DescInDdr ⟨op, fields⟩ ⟨op, fields'⟩
      ∧ (∀ key ∈ addressKeys ⟨op, fields⟩, SameAddress ⟨op, fields⟩ ⟨op, fields'⟩ key)
      ∧ (∀ key ∈ integerKeys ⟨op, fields⟩, SameInteger ⟨op, fields⟩ ⟨op, fields'⟩ key)
      ∧ ∀ key ∈ runnerKeys ⟨op, fields⟩, (fields' key.toList).isSome := by
  constructor
  · rintro ⟨-, haddress, hinteger, hfields, hdesc⟩
    exact ⟨hdesc hop, haddress, hinteger, hfields⟩
  · rintro ⟨hdesc, haddress, hinteger, hfields⟩
    exact ⟨rfl, haddress, hinteger, hfields, fun _ => hdesc⟩

/-- An opcode without fields of the runner's own. -/
theorem alike_iff_of_nil {op : List Char} (hop : op ≠ "SYNC".toList)
    (hkeys : runnerKeys ⟨op, fields⟩ = []) :
    Alike ⟨op, fields⟩ ⟨op, fields'⟩ ↔ DescInDdr ⟨op, fields⟩ ⟨op, fields'⟩
      ∧ (∀ key ∈ addressKeys ⟨op, fields⟩, SameAddress ⟨op, fields⟩ ⟨op, fields'⟩ key)
      ∧ ∀ key ∈ integerKeys ⟨op, fields⟩, SameInteger ⟨op, fields⟩ ⟨op, fields'⟩ key := by
  rw [alike_iff hop, hkeys]
  simp

theorem runs_dmaLoad {c : DmaNumbers}
    (hc : HazardParse.dmaNumbers ⟨"DMA_LOAD".toList, fields⟩ = some c) :
    Runs ⟨"DMA_LOAD".toList, fields'⟩ (.dmaLoad c)
      ↔ Alike ⟨"DMA_LOAD".toList, fields⟩ ⟨"DMA_LOAD".toList, fields'⟩ := by
  rw [runs_desc ⟨"DMA_LOAD".toList, fields⟩ (sameDma c) decode_dmaLoad
    (fun d p => slotInDdr_iff rfl rfl) (fun d p => Iff.rfl), dmaParam_iff hc, alike_iff_of_nil (by decide) rfl]
  rfl

theorem runs_dmaStore {c : DmaNumbers}
    (hc : HazardParse.dmaNumbers ⟨"DMA_STORE".toList, fields⟩ = some c) :
    Runs ⟨"DMA_STORE".toList, fields'⟩ (.dmaStore c)
      ↔ Alike ⟨"DMA_STORE".toList, fields⟩ ⟨"DMA_STORE".toList, fields'⟩ := by
  rw [runs_desc ⟨"DMA_STORE".toList, fields⟩ (sameDma c) decode_dmaStore
    (fun d p => slotInDdr_iff rfl rfl) (fun d p => Iff.rfl), dmaParam_iff hc, alike_iff_of_nil (by decide) rfl]
  rfl

theorem runs_matmul {c : MatmulNumbers}
    (hc : HazardParse.matmulNumbers ⟨"MATMUL".toList, fields⟩ = some c) :
    Runs ⟨"MATMUL".toList, fields'⟩ (.matmul c)
      ↔ Alike ⟨"MATMUL".toList, fields⟩ ⟨"MATMUL".toList, fields'⟩ := by
  rw [runs_desc ⟨"MATMUL".toList, fields⟩ (sameMatmul c) decode_matmul
    (fun d p => slotInDdr_iff rfl rfl) (fun d p => Iff.rfl), matmulParam_iff hc, alike_iff (by decide)]
  rfl

theorem runs_act {c : ActNumbers}
    (hc : HazardParse.actNumbers ⟨"ACT".toList, fields⟩ = some c) :
    Runs ⟨"ACT".toList, fields'⟩ (.act c)
      ↔ Alike ⟨"ACT".toList, fields⟩ ⟨"ACT".toList, fields'⟩ := by
  rw [runs_desc ⟨"ACT".toList, fields⟩ (sameAct c) decode_act
    (fun d p => slotInDdr_iff rfl rfl) (fun d p => Iff.rfl), actParam_iff hc, alike_iff (by decide)]
  rfl

theorem runs_reduce {c : ReduceNumbers}
    (hc : HazardParse.reduceNumbers ⟨"REDUCE".toList, fields⟩ = some c) :
    Runs ⟨"REDUCE".toList, fields'⟩ (.reduce c)
      ↔ Alike ⟨"REDUCE".toList, fields⟩ ⟨"REDUCE".toList, fields'⟩ := by
  rw [runs_desc ⟨"REDUCE".toList, fields⟩ (sameReduce c) decode_reduce
    (fun d p => slotInDdr_iff rfl rfl) (fun d p => Iff.rfl), reduceParam_iff hc, alike_iff (by decide)]
  rfl

/-- The four elementwise instructions. -/
theorem runs_elementwise {op : String}
    (hop : op = "ELEMENTWISE_ADD" ∨ op = "ELEMENTWISE_SUB" ∨ op = "ELEMENTWISE_MUL"
      ∨ op = "ELEMENTWISE_DIV") {c : EwiseNumbers}
    (hc : HazardParse.ewiseNumbers ⟨op.toList, fields⟩ = some c) :
    Runs ⟨op.toList, fields'⟩ (.elementwise (ewiseOpCode op.toList) c)
      ↔ Alike ⟨op.toList, fields⟩ ⟨op.toList, fields'⟩ := by
  have hsame : ∀ d p, SameInsn (.elementwise (ewiseOpCode op.toList) c)
      (.elementwise (ewiseOpCode op.toList) d p) ↔ sameEwise c p := fun d p => by
    rw [SameInsn]
    simp only [true_and]
  have hslot : ∀ d (p : EwiseParam), SlotInDdr (.elementwise (ewiseOpCode op.toList) d p) ↔
      DDR_ADDR.toNat ≤ d.toNat ∧ d.toNat + descSize ⟨op.toList, fields⟩ ≤ ddrEnd := by
    intro d p
    rcases hop with rfl | rfl | rfl | rfl <;> exact slotInDdr_iff rfl rfl
  rcases hop with rfl | rfl | rfl | rfl <;>
    (rw [runs_desc _ (sameEwise c) rfl hslot hsame,
       ewiseParam_iff hc, alike_iff_of_nil (by decide) rfl]
     rfl)

theorem runs_sync :
    Runs ⟨"SYNC".toList, fields'⟩ .sync
      ↔ Alike ⟨"SYNC".toList, fields⟩ ⟨"SYNC".toList, fields'⟩ := by
  constructor
  · intro _
    exact ⟨rfl, fun key hkey => absurd hkey List.not_mem_nil,
      fun key hkey => absurd hkey List.not_mem_nil,
      fun key hkey => absurd hkey List.not_mem_nil, fun hop => absurd rfl hop⟩
  · intro _
    exact ⟨.sync, decode_sync, fun hsync => absurd hsync (by decide), trivial⟩

end Opcode

/-! ## Every opcode -/

def ewiseName : EwiseOp → String
  | .add => "ELEMENTWISE_ADD"
  | .sub => "ELEMENTWISE_SUB"
  | .mul => "ELEMENTWISE_MUL"
  | .div => "ELEMENTWISE_DIV"

/-- The opcode of an instruction the checker has read. -/
def checkedName : CheckedInsn → String
  | .dmaLoad _ => "DMA_LOAD"
  | .dmaStore _ => "DMA_STORE"
  | .matmul _ => "MATMUL"
  | .elementwise op _ => ewiseName op
  | .act _ => "ACT"
  | .reduce _ => "REDUCE"
  | .sync => "SYNC"

/-- The opcode of an instruction the runner has read. -/
def decodedName : EasmInsn → String
  | .dmaLoad .. => "DMA_LOAD"
  | .dmaStore .. => "DMA_STORE"
  | .matmul .. => "MATMUL"
  | .elementwise op .. => ewiseName op
  | .act .. => "ACT"
  | .reduce .. => "REDUCE"
  | .sync => "SYNC"

theorem SameInsn.name_eq {c : CheckedInsn} {x : EasmInsn} (h : SameInsn c x) :
    decodedName x = checkedName c := by
  cases c <;> cases x <;> first | rfl | exact h.elim | exact congrArg ewiseName h.1

theorem ewiseName_opCode {op : List Char} (hop : op = "ELEMENTWISE_ADD".toList
      ∨ op = "ELEMENTWISE_SUB".toList ∨ op = "ELEMENTWISE_MUL".toList
      ∨ op = "ELEMENTWISE_DIV".toList) : op = (ewiseName (ewiseOpCode op)).toList := by
  rcases hop with rfl | rfl | rfl | rfl <;> rfl

section Insn

variable {f g : Insn} {c : CheckedInsn}

theorem decode_op {x : EasmInsn} (h : g.decode = .ok x) : g.op = (decodedName x).toList := by
  rw [Insn.decode] at h
  by_cases hsync : g.op = "SYNC".toList
  · rw [if_pos hsync] at h
    cases h
    exact hsync
  rw [if_neg hsync] at h
  obtain ⟨d, -, h⟩ := bind_ok h
  split_ifs at h with hdma hload hmatmul hewise hact hreduce
  · obtain ⟨p, -, h⟩ := bind_ok h
    cases h
    exact hload
  · obtain ⟨p, -, h⟩ := bind_ok h
    cases h
    exact hdma.resolve_left hload
  · obtain ⟨p, -, h⟩ := bind_ok h
    cases h
    exact hmatmul
  · obtain ⟨p, -, h⟩ := bind_ok h
    cases h
    exact ewiseName_opCode hewise
  · obtain ⟨p, -, h⟩ := bind_ok h
    cases h
    exact hact
  · obtain ⟨p, -, h⟩ := bind_ok h
    cases h
    exact hreduce

theorem parseInstruction_op (h : HazardParse.parseInstruction f = some c) :
    f.op = (checkedName c).toList := by
  unfold HazardParse.parseInstruction at h
  split_ifs at h with hload hstore hmatmul hewise hact hreduce hsync
  · obtain ⟨p, -, rfl⟩ := Option.map_eq_some_iff.mp h
    exact hload
  · obtain ⟨p, -, rfl⟩ := Option.map_eq_some_iff.mp h
    exact hstore
  · obtain ⟨p, -, rfl⟩ := Option.map_eq_some_iff.mp h
    exact hmatmul
  · obtain ⟨p, -, rfl⟩ := Option.map_eq_some_iff.mp h
    exact ewiseName_opCode hewise
  · obtain ⟨p, -, rfl⟩ := Option.map_eq_some_iff.mp h
    exact hact
  · obtain ⟨p, -, rfl⟩ := Option.map_eq_some_iff.mp h
    exact hreduce
  · cases h
    exact hsync

/-- **One instruction** the checker accepts: the runner takes it for the same
one exactly if the two lines are alike. -/
theorem runs_iff (hc : HazardParse.parseInstruction f = some c) : Runs g c ↔ Alike f g := by
  have hop : Runs g c → g.op = f.op := by
    rintro ⟨x, hx, -, hsame⟩
    rw [decode_op hx, hsame.name_eq, parseInstruction_op hc]
  -- both sides force one opcode, so that the two fall into the same case
  suffices hruns : g.op = f.op → (Runs g c ↔ Alike f g) by
    constructor
    · intro h
      exact (hruns (hop h)).mp h
    · intro h
      exact (hruns h.op).mpr h
  obtain ⟨op, fields⟩ := f
  obtain ⟨op', fields'⟩ := g
  rintro rfl
  unfold HazardParse.parseInstruction at hc
  split_ifs at hc with hload hstore hmatmul hewise hact hreduce hsync
  · obtain rfl : op' = _ := hload
    obtain ⟨c, hfields, rfl⟩ := Option.map_eq_some_iff.mp hc
    exact runs_dmaLoad hfields
  · obtain rfl : op' = _ := hstore
    obtain ⟨c, hfields, rfl⟩ := Option.map_eq_some_iff.mp hc
    exact runs_dmaStore hfields
  · obtain rfl : op' = _ := hmatmul
    obtain ⟨c, hfields, rfl⟩ := Option.map_eq_some_iff.mp hc
    exact runs_matmul hfields
  · obtain ⟨c, hfields, rfl⟩ := Option.map_eq_some_iff.mp hc
    obtain ⟨name, hname, rfl⟩ : ∃ name : String, (name = "ELEMENTWISE_ADD"
        ∨ name = "ELEMENTWISE_SUB" ∨ name = "ELEMENTWISE_MUL"
        ∨ name = "ELEMENTWISE_DIV") ∧ op' = name.toList := by
      rcases hewise with hop | hop | hop | hop
      · exact ⟨_, .inl rfl, hop⟩
      · exact ⟨_, .inr (.inl rfl), hop⟩
      · exact ⟨_, .inr (.inr (.inl rfl)), hop⟩
      · exact ⟨_, .inr (.inr (.inr rfl)), hop⟩
    exact runs_elementwise hname hfields
  · obtain rfl : op' = _ := hact
    obtain ⟨c, hfields, rfl⟩ := Option.map_eq_some_iff.mp hc
    exact runs_act hfields
  · obtain rfl : op' = _ := hreduce
    obtain ⟨c, hfields, rfl⟩ := Option.map_eq_some_iff.mp hc
    exact runs_reduce hfields
  · obtain rfl : op' = _ := hsync
    cases hc
    exact runs_sync

end Insn

end EclipseNpu.Tools
