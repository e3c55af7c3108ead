import HadamardIMS.Alignment
import HadamardIMS.CarryOver
import HadamardIMS.Completions
import HadamardIMS.MatrixPipeline
import HadamardIMS.Progress
import HadamardIMS.Sequences
