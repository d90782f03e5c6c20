import Synthol.Crt.Transparent
import Synthol.Crt.Loop
import Synthol.Setup.Itoa
import Synthol.Setup.Strlen
import Synthol.Stdio.FloatFixed
import Synthol.Stdio.FloatHex
import Synthol.Stdio.Snprintf
import Synthol.Logging.Vnlogf
import Synthol.Logging.Vlogf
import Synthol.Logging.Assert
import Synthol.Stdio.Failures
import Synthol.Stdlib.ReadBack
