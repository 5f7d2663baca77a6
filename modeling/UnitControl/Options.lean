import UnitControl.Duration

/-!
# Options of an engine
-/

namespace UnitControl

structure Options where
  callTimeout : Duration
  requestBuffer : Nat
  signalBuffer : Nat
  pollInterval : Duration

namespace Options

def standard : Options := ⟨.ofSeconds 5, 64, 1000, .ofSeconds 1⟩

/-- How an engine with these options describes itself. -/
def describe (o : Options) : String :=
  "UnitLink \x7b inner: Inner \x7b opts: UnitLinkOptions \x7b dbus_call_timeout: " ++
    o.callTimeout.text ++ ", request_buffer: " ++ toString o.requestBuffer ++
    ", signal_buffer: " ++ toString o.signalBuffer ++ ", poll_interval: " ++ o.pollInterval.text ++
    " \x7d, registry: Registry \x7b .. \x7d, .. \x7d \x7d"

end Options

end UnitControl
