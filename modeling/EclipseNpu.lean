import EclipseNpu.Lib.Loop
import EclipseNpu.Lib.Footprint
import EclipseNpu.Lib.Clocked
import EclipseNpu.Lib.Fifo
import EclipseNpu.Lib.Arbiter
import EclipseNpu.Lib.Rounds
import EclipseNpu.Lib.StridedCopy
import EclipseNpu.Lib.Bump
import EclipseNpu.Lib.Reduction
import EclipseNpu.Lib.Segments
import EclipseNpu.Lib.Simulation
import EclipseNpu.Lib.Ieee754
import EclipseNpu.Lib.Rounding
import EclipseNpu.Lib.Text
import EclipseNpu.Lib.Utf8
import EclipseNpu.Lib.PyText
import EclipseNpu.Runtime.Isa
import EclipseNpu.Runtime.CModel
import EclipseNpu.Runtime.Easm
import EclipseNpu.Runtime.EasmParse
import EclipseNpu.Runtime.Footprints
import EclipseNpu.Runtime.Stream
import EclipseNpu.Runtime.RangeChecks
import EclipseNpu.Runtime.Packed
import EclipseNpu.Runtime.Kernels
import EclipseNpu.Runtime.Cycles
import EclipseNpu.Runtime.DmaWords
import EclipseNpu.Runtime.Dtype
import EclipseNpu.Runtime.ReduceContract
import EclipseNpu.Runtime.ReduceOverlap
import EclipseNpu.Runtime.Rounding
import EclipseNpu.Runtime.ReduceCycles
import EclipseNpu.Runtime.EclipseRun
import EclipseNpu.Runtime.EwiseContract
import EclipseNpu.Runtime.DmaRoundTrip
import EclipseNpu.Tools.HazardCheck
import EclipseNpu.Tools.OrderIndependence
import EclipseNpu.Tools.HazardSegments
import EclipseNpu.Tools.HazardParse
import EclipseNpu.Tools.SameInsn
import EclipseNpu.Tools.SameTokens
import EclipseNpu.Tools.SameProgram
import EclipseNpu.Tools.FootprintCoverage
import EclipseNpu.Compiler.Ir
import EclipseNpu.Compiler.Lowering
import EclipseNpu.Compiler.Allocate
import EclipseNpu.Compiler.Emit
import EclipseNpu.Compiler.EmitComplete
import EclipseNpu.Compiler.DescriptorRegion
import EclipseNpu.Compiler.DdrLayout
import EclipseNpu.Compiler.SramLayout
import EclipseNpu.Compiler.GoldenMirror
import EclipseNpu.Compiler.EwiseBroadcast
import EclipseNpu.Compiler.LoopNest
import EclipseNpu.Compiler.MatmulStream
import EclipseNpu.Compiler.UnaryStream
import EclipseNpu.Compiler.MatmulEndToEnd
import EclipseNpu.Compiler.MatmulMaps
import EclipseNpu.Compiler.Classification
import EclipseNpu.Compiler.ActSound
import EclipseNpu.Compiler.ReduceSound
import EclipseNpu.Compiler.Verify
import EclipseNpu.Compiler.MatmulTranspose
import EclipseNpu.Compiler.Assertions
import EclipseNpu.Compiler.EasmText
import EclipseNpu.Compiler.EasmRoundTrip
import EclipseNpu.Compiler.ElideCopies
import EclipseNpu.Compiler.BodySem
import EclipseNpu.Compiler.ElidedBody
import EclipseNpu.Compiler.ElideSound
import EclipseNpu.Compiler.TransferLines
import EclipseNpu.Compiler.BodyMemory
import EclipseNpu.Compiler.MachineOps
import EclipseNpu.Compiler.EmitSound
import EclipseNpu.Compiler.TensorSem
import EclipseNpu.Compiler.LawfulBody
import EclipseNpu.Compiler.Divisions
import EclipseNpu.Compiler.Pipeline
import EclipseNpu.Compiler.SyncPlacement
import EclipseNpu.Compiler.EasmFile
import EclipseNpu.Compiler.InputFiles
import EclipseNpu.Compiler.EndToEnd
import EclipseNpu.Compiler.ReorderedRun
import EclipseNpu.Rtl.Dma
import EclipseNpu.Rtl.DmaCursor
import EclipseNpu.Rtl.DmaRun
import EclipseNpu.Rtl.DmaTiming
import EclipseNpu.Rtl.DmaWrites
import EclipseNpu.Rtl.DmaRefines
import EclipseNpu.Rtl.PipeSlice
import EclipseNpu.Rtl.BankXbar
import EclipseNpu.Rtl.ReadBench
import EclipseNpu.Rtl.DmaXbar
import EclipseNpu.Rtl.BankedSram
