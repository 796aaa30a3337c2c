import ScalaRs.WhileLoops
import ScalaRs.TseitinSolverCorrectness
import ScalaRs.ModelEnumeration
import ScalaRs.PropositionNormalForms
import ScalaRs.InheritanceCycles
import ScalaRs.LinearizationQueries
import ScalaRs.LinearizationOverflow
import ScalaRs.ByteCodecRoundTrip
import ScalaRs.PickleReaderSafety
import ScalaRs.PickleNumbers
import ScalaRs.PickleRoundTrip
import ScalaRs.SubsetUnpicklerAgreement
import ScalaRs.SignatureLinearization
import ScalaRs.ConstantPoolRoundTrip
import ScalaRs.ClassEmission
import ScalaRs.ClassfileReading
import ScalaRs.AnnotationReading
import ScalaRs.ClassInterning
import ScalaRs.InternedClassData
import ScalaRs.IntSwitchAgreement
import ScalaRs.ClassfileSignatureRoundTrip
import ScalaRs.MacroPrefixes
import ScalaRs.UnificationSolutions
import ScalaRs.PickleFullNames
import ScalaRs.ModifiedUtf8Units
import ScalaRs.GreedyTokens
import ScalaRs.JavaIdentifierParts
import ScalaRs.NameTransformer
import ScalaRs.EncodedNames
import ScalaRs.NestedNames
import ScalaRs.JvmDescriptors
import ScalaRs.DescriptorScanners
import ScalaRs.DescriptorAgreement
import ScalaRs.MachineArithmetic
import ScalaRs.ConstantFolding
import ScalaRs.ConstantEvaluation
import ScalaRs.ConstantFoldingSoundness
import ScalaRs.QueryPrograms
import ScalaRs.FiniteWalks
import ScalaRs.SubsetClass
import ScalaRs.SubsetTermination
import ScalaRs.OrderedMaps
import ScalaRs.PartialTriples
import ScalaRs.VerificationTypes
import ScalaRs.Assembler
import ScalaRs.AssemblerInstructions
import ScalaRs.AssemblerFinish
import ScalaRs.CachedSets
import ScalaRs.TokenKinds
import ScalaRs.LexerCharacters
import ScalaRs.LexerState
import ScalaRs.LexerEscapes
import ScalaRs.Lexer
import ScalaRs.LexerPasses
import ScalaRs.StatementBreaks
import ScalaRs.LexerProgress
import ScalaRs.LexerSpans
import ScalaRs.EscapeAgreement
import ScalaRs.InterpolationHoles
import ScalaRs.SyntaxTrees
import ScalaRs.TokenStreams
import ScalaRs.OperatorNames
import ScalaRs.ExpressionParser
import ScalaRs.PatternParser
import ScalaRs.OperatorTrees
import ScalaRs.InfixExpressions
import ScalaRs.IntegerLiterals
import ScalaRs.PatternVariables
import ScalaRs.EvaluationOrder
import ScalaRs.TypedTrees
import ScalaRs.TreeEvaluation
import ScalaRs.RassocOrder
import ScalaRs.RassocEvaluation
import ScalaRs.RassocWalk
import ScalaRs.RassocCorrectness
import ScalaRs.FormatStrings
import ScalaRs.FormatInterpolation
import ScalaRs.FormatReadBack
import ScalaRs.LineStreams
import ScalaRs.WireLines
import ScalaRs.CompilerTrees
import ScalaRs.GrowingFamilies
import ScalaRs.CaptureClosure
import ScalaRs.EnoughFuel
import ScalaRs.JvmSignatures
import ScalaRs.JavaSignatures
import ScalaRs.JavaSignatureReading
import ScalaRs.JavaSignatureSections
import ScalaRs.JavaSignatureCorrectness
import ScalaRs.SignatureErasure
import ScalaRs.ErasureSkipping
import ScalaRs.ErasureCorrectness
import ScalaRs.Explorations
import ScalaRs.InterfaceBridges
import ScalaRs.BridgeHierarchies
import ScalaRs.CovariantBridges
import ScalaRs.RunningLeast
import ScalaRs.ObjectForwarders
import ScalaRs.SigTypes
import ScalaRs.TypeSubstitution
import ScalaRs.SubstitutionSpecs
import ScalaRs.SubstitutionTermination
import ScalaRs.NamelessTypes
import ScalaRs.CaptureConditions
import ScalaRs.CaptureAvoidance
import ScalaRs.Uncurry
import ScalaRs.FlatTrees
import ScalaRs.UncurryCorrectness
import ScalaRs.BranchingGraphs
import ScalaRs.StoppingActions
import ScalaRs.SignatureBuilder
import ScalaRs.SignatureReadings
import ScalaRs.SignatureTermination
import ScalaRs.PickleCycles
import ScalaRs.Utf8Chunking
import ScalaRs.Utf16Offsets
import ScalaRs.KeyedSearch
import ScalaRs.BoundCycles
import ScalaRs.OperandStacks
import ScalaRs.CallArguments
import ScalaRs.ArgumentStacks
import ScalaRs.CallArgumentCorrectness
import ScalaRs.RecursionAsLoops
import ScalaRs.TailCalls
import ScalaRs.TailCallRuns
import ScalaRs.TailCallNodes
import ScalaRs.TailCallSteps
import ScalaRs.TailCallCorrectness
import ScalaRs.LinearizationChanges
import ScalaRs.LinearizationRuns
