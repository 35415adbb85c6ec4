import CompileForge.Runtime.Cache.ChunkedPrefill
import CompileForge.Runtime.Engine.GenerateLoop
import CompileForge.Abi.EdgeSurvival
import CompileForge.Runtime.Engine.GraphAgreement
import CompileForge.Abi.CacheContract
import CompileForge.Runtime.Server.Isolation
import CompileForge.Runtime.Engine.PlanProbe
import CompileForge.Runtime.Engine.WeightTransparency
import CompileForge.Compiler.TensorParallel
import CompileForge.PythonRuntime.Speculative.Verifier
import CompileForge.SfDialect.CachedDecode
import CompileForge.Abi.PolicyTransport
import CompileForge.Compiler.Shape.Sound
import CompileForge.PythonRuntime.RadixPort
import CompileForge.Runtime.Engine.LayerWrites
import CompileForge.Runtime.Engine.AdmissionOrder
import CompileForge.Runtime.Cache.RadixInRange
import CompileForge.Runtime.Cache.EvictCount
import CompileForge.Runtime.Cache.StoreRun
import CompileForge.Compiler.IrKeeps
import CompileForge.PythonRuntime.PrefixTransparency
import CompileForge.PythonRuntime.BatchedStep
import CompileForge.SfDialect.ChainEquivalence
import CompileForge.Runtime.Cache.WriteAtomic
import CompileForge.Runtime.Cache.ProducerLayout
import CompileForge.Runtime.Engine.PrefixReuse
import CompileForge.Runtime.Engine.GenerationLimits
import CompileForge.Runtime.Engine.FailedStep
import CompileForge.Runtime.Engine.LinearAttnFailure
import CompileForge.Runtime.Engine.WeightPassthrough
import CompileForge.Runtime.Engine.SretWalk
import CompileForge.Runtime.Engine.SamplerSupport
import CompileForge.Runtime.Engine.FusedLayer
import CompileForge.Abi.ConstantTransport
import CompileForge.PythonRuntime.RwkvStateManager
import CompileForge.PythonRuntime.Speculative.GreedyVerify
import CompileForge.Compiler.BlasBridge
import CompileForge.Compiler.SplitAttributes
import CompileForge.Compiler.Fx.Pieces
import CompileForge.Compiler.Fx.SsaForm
import CompileForge.Compiler.Quantize.Awq
import CompileForge.Compiler.Quantize.SmoothQuant
import CompileForge.SfDialect.LowerReduce
import CompileForge.SfDialect.LowerCumsum
import CompileForge.SfDialect.LowerArange
import CompileForge.Compiler.Fx.WeightIdentity
import CompileForge.Kernels.PagedAttention
import CompileForge.Kernels.FlashAttention
import CompileForge.SfDialect.LowerConv1d
import CompileForge.Kernels.RmsNorm
import CompileForge.SfDialect.ShapeInference
import CompileForge.Runtime.Engine.PlanTranspose
