import MagnetoX.Mcu.Stepping.Position
import MagnetoX.Host.StepCompress.Steppersync
import MagnetoX.Mcu.Sched.Refinement
import MagnetoX.Ota.Version
import MagnetoX.Host.BedMesh.Moves
import MagnetoX.Host.VirtualSd.Pausing
import MagnetoX.Mcu.Gpio.Watchdog
import MagnetoX.Serial.Completion
import MagnetoX.Host.Toolhead.FlushOrder
import MagnetoX.Mcu.MoveNodes.Conserved
import MagnetoX.Mcu.Trsync.Exclusive
import MagnetoX.Serial.TransmitRefinement
import MagnetoX.Serial.PopInput
import MagnetoX.Host.StepCompress.Buffer
import MagnetoX.Host.Toolhead.Profiles
import MagnetoX.Manager.Requests
import MagnetoX.Manager.SerialUpdate
import MagnetoX.Manager.UuidUpdate
import MagnetoX.Message.Sendf
import MagnetoX.Host.Gcode.Input
import MagnetoX.Host.Reactor.Mutex
import MagnetoX.Host.ConfigFile.CrashSafety
import MagnetoX.Message.Bounds
import MagnetoX.Host.Trdispatch.Trigger
import MagnetoX.Mcu.Endstop
import MagnetoX.Host.Reactor.Timers
import MagnetoX.Host.Reactor.Poll
import MagnetoX.Host.ExcludeObject
import MagnetoX.Host.StatusQuery
import MagnetoX.Host.ConfigFile.Includes
import MagnetoX.Host.BedMesh.Regions
import MagnetoX.Buttons.Convergence
import MagnetoX.Message.PyBlock
import MagnetoX.Host.McuPwm
import MagnetoX.Ota.Pruning
import MagnetoX.Mcu.Adxl345
