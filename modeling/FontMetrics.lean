import FontMetrics.Bytes.Cursor
import FontMetrics.Log
import FontMetrics.Main
import FontMetrics.Proofs.Charstring.Drawing
import FontMetrics.Proofs.Charstring.Inlining
import FontMetrics.Proofs.Charstring.Limits
import FontMetrics.Proofs.Outline.Extent
import FontMetrics.Proofs.Outline.Translation
import FontMetrics.Proofs.Charstring.Invariant
import FontMetrics.Proofs.Table.Assembly
import FontMetrics.Proofs.Charstring.Extension
import FontMetrics.Proofs.Charstring.Hints
import FontMetrics.Proofs.Checked.OperandStack
import FontMetrics.Proofs.Checked.Outline
import FontMetrics.Proofs.Checked.PathReader
import FontMetrics.Proofs.Checked.Path
import FontMetrics.Proofs.Checked.Decoder
import FontMetrics.Proofs.Checked.State
import FontMetrics.Proofs.Checked.Machine
import FontMetrics.Proofs.Charstring.Failure
import FontMetrics.Proofs.Charstring.LocalTable
import FontMetrics.Proofs.Charstring.CodeTable
import FontMetrics.Proofs.Charstring.PathExpansion
import FontMetrics.Proofs.Charstring.Attempt
import FontMetrics.Proofs.Charstring.AxisExchange
import FontMetrics.Proofs.Charstring.OperandUse
import FontMetrics.Proofs.Charstring.Flex
import FontMetrics.Proofs.Font.CharacterMap
import FontMetrics.Proofs.Font.SegmentMap
import FontMetrics.Proofs.Charstring.Addressing
import FontMetrics.Proofs.Charstring.Roll
import FontMetrics.Proofs.Checked.StackHistory
import FontMetrics.Proofs.Checked.Reader
import FontMetrics.Proofs.Charstring.StackErrors
import FontMetrics.Proofs.Charstring.StackFrame
import FontMetrics.Proofs.Charstring.Transient
import FontMetrics.Proofs.Charstring.Nested
import FontMetrics.Proofs.Table.Recomputation
import FontMetrics.Proofs.Font.Description
import FontMetrics.Proofs.Table.Text
import FontMetrics.Proofs.Charstring.HintBudget
