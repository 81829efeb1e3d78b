import FpgaQuaternions.Lib.FixedPoint
import FpgaQuaternions.Lib.Effects
import FpgaQuaternions.Lib.Framing
import FpgaQuaternions.Calc.Transfer
import FpgaQuaternions.Calc.Chain
import FpgaQuaternions.Calc.Accumulator
import FpgaQuaternions.Calc.Readback
import FpgaQuaternions.Calc.Agreement
import FpgaQuaternions.Board.Protocol
import FpgaQuaternions.Board.Failure
import FpgaQuaternions.Board.Leak
import FpgaQuaternions.Server.Main
import FpgaQuaternions.Server.Transmission
import FpgaQuaternions.Session.Exchange
import FpgaQuaternions.Web.Result
import FpgaQuaternions.Half.Rounding
import FpgaQuaternions.Half.Shifts
import FpgaQuaternions.Nic.Receive
import FpgaQuaternions.Nic.Arrival
import FpgaQuaternions.Nic.Descriptor
import FpgaQuaternions.Nic.Transmit
import FpgaQuaternions.Fpu.Root
import FpgaQuaternions.Web.Arithmetic
import FpgaQuaternions.Iniche.Handler
import FpgaQuaternions.Iniche.Loss
