/-!
# The counters of one worker

`ThreadStats` of `include/stats.hpp` and the three ways a worker adds to its own entry
(`src/stats.cpp`).
-/

namespace UringPerf

structure ThreadStats where
  bytesTransferred : Nat
  packetsCount : Nat
  zcNotifications : Nat
  errors : Nat
deriving DecidableEq, Repr

def ThreadStats.zero : ThreadStats := ⟨0, 0, 0, 0⟩

def ThreadStats.addBytes (t : ThreadStats) (bytes packets : Nat) : ThreadStats :=
  { t with bytesTransferred := t.bytesTransferred + bytes, packetsCount := t.packetsCount + packets }

def ThreadStats.addZcNotification (t : ThreadStats) : ThreadStats :=
  { t with zcNotifications := t.zcNotifications + 1 }

def ThreadStats.addError (t : ThreadStats) : ThreadStats := { t with errors := t.errors + 1 }

end UringPerf
