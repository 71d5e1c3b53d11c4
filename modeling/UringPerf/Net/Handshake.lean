import UringPerf.Base.Bytes
import UringPerf.Net.Stream

/-!
# The handshake of a TCP connection

`send_handshake` and `recv_handshake` of `net_utils.cpp`: a direction byte and the duration in network
order, moved by the loops of `Net.Stream`.

* `sendHandshake, recvHandshake`  the two sides, each with the byte order of its host;
* `wire`                          the five bytes as they are on the stream;
* `handshake_round_trip`          what one side says is what the other side learns.
-/

namespace UringPerf.Net
open Bytes

/-- the buffer that `send_handshake` fills -/
def handshakeBuf (e : Endian) (reverse : Bool) (durationSec : UInt32) : List UInt8 :=
  (if reverse then 1 else 0) :: e.bytes (e.htonl durationSec)

def sendHandshake (e : Endian) (reverse : Bool) (durationSec : UInt32) (cs : List Call)
    (out : List UInt8) : Option (Bool × List UInt8) :=
  sendAll (handshakeBuf e reverse durationSec) 0 cs out

/-- the result, the two output parameters, of which `reverse` and `durationSec` are the values before the
call, and the rest of the stream -/
def recvHandshake (e : Endian) (cs : List Call) (str : List UInt8) (reverse : Bool)
    (durationSec : UInt32) : Option (Bool × (Bool × UInt32) × List UInt8) :=
  match recvAll 5 [] cs str with
  | none => none
  | some (false, _, rest) => some (false, (reverse, durationSec), rest)
  | some (true, buf, rest) =>
    some (true, (buf.getD 0 0 != 0, e.htonl (e.word (buf.drop 1))), rest)

/-- the handshake on the stream, which does not depend on a host -/
def wire (reverse : Bool) (durationSec : UInt32) : List UInt8 :=
  (if reverse then 1 else 0) :: Endian.big.bytes durationSec

@[simp] theorem length_wire (reverse : Bool) (durationSec : UInt32) :
    (wire reverse durationSec).length = 5 := rfl

theorem handshakeBuf_eq (e : Endian) (reverse : Bool) (durationSec : UInt32) :
    handshakeBuf e reverse durationSec = wire reverse durationSec := by
  rw [handshakeBuf, bytes_htonl, wire]

section
variable (e : Endian) (reverse : Bool) (durationSec : UInt32)

theorem sendHandshake_true {cs : List Call} {out out' : List UInt8}
    (h : sendHandshake e reverse durationSec cs out = some (true, out')) :
    out' = out ++ wire reverse durationSec := by
  rw [sendHandshake, handshakeBuf_eq] at h
  exact sendAll_true h

theorem sendHandshake_smooth {cs : List Call} (hs : Smooth cs) (hn : 5 ≤ amount cs)
    (out : List UInt8) :
    sendHandshake e reverse durationSec cs out = some (true, out ++ wire reverse durationSec) := by
  obtain ⟨out', h⟩ := sendAll_smooth cs 0 out hs
    (show (handshakeBuf e reverse durationSec).length ≤ 0 + amount cs by
      rw [handshakeBuf_eq, length_wire]
      omega)
  rw [← sendHandshake_true e reverse durationSec h]
  exact h

/-- the decoder undoes the encoder -/
theorem decode_wire : ((wire reverse durationSec).getD 0 0 != 0,
    e.htonl (e.word ((wire reverse durationSec).drop 1))) = (reverse, durationSec) := by
  have h : e.htonl (e.word ((wire reverse durationSec).drop 1)) = durationSec :=
    ntohl_word e durationSec
  rw [h]
  cases reverse <;> rfl

variable {e} {reverse} {durationSec}

/-- a `recvHandshake` that returns true has taken five bytes and decoded them -/
theorem recvHandshake_true {cs : List Call} {payload rest : List UInt8} {r : Bool} {d : UInt32}
    {got : Bool × UInt32}
    (h : recvHandshake e cs (wire reverse durationSec ++ payload) r d = some (true, got, rest)) :
    got = (reverse, durationSec) ∧ rest = payload := by
  unfold recvHandshake at h
  split at h
  · cases h
  · cases h
  · next buf rest' hr =>
    cases h
    obtain ⟨happ, -, hlen⟩ := recvAll_split cs [] _ true buf rest (Nat.zero_le _) hr
    rw [List.nil_append] at happ
    obtain ⟨h1, h2⟩ := List.append_inj happ ((hlen.mp rfl).trans (length_wire _ _).symm)
    rw [h1]
    exact ⟨decode_wire e reverse durationSec, h2⟩

theorem recvHandshake_smooth {cs : List Call} (hs : Smooth cs) (hn : 5 ≤ amount cs)
    (payload : List UInt8) (r : Bool) (d : UInt32) :
    recvHandshake e cs (wire reverse durationSec ++ payload) r d =
      some (true, (reverse, durationSec), payload) := by
  obtain ⟨buf, rest, hr⟩ := recvAll_smooth cs [] (wire reverse durationSec ++ payload) hs
    (show 5 ≤ 0 + amount cs by omega) (by rw [List.length_append, length_wire]; omega)
  have h : recvHandshake e cs (wire reverse durationSec ++ payload) r d =
      some (true, (buf.getD 0 0 != 0, e.htonl (e.word (buf.drop 1))), rest) := by
    rw [recvHandshake, hr]
  obtain ⟨h1, h2⟩ := recvHandshake_true h
  rw [h, h1, h2]

/-- a loop that returned false leaves the output parameters as they were -/
theorem recvHandshake_of_false {cs : List Call} {str : List UInt8} (r : Bool) (d : UInt32)
    (h : ∃ buf rest, recvAll 5 [] cs str = some (false, buf, rest)) :
    ∃ rest, recvHandshake e cs str r d = some (false, (r, d), rest) := by
  obtain ⟨buf, rest, hr⟩ := h
  exact ⟨rest, by rw [recvHandshake, hr]⟩

theorem recvHandshake_false {cs : List Call} {str rest : List UInt8} {r : Bool} {d : UInt32}
    {got : Bool × UInt32} (h : recvHandshake e cs str r d = some (false, got, rest)) :
    got = (r, d) := by
  unfold recvHandshake at h
  split at h
  · cases h
  · cases h
    rfl
  · cases h

theorem recvHandshake_waits {cs : List Call} {str : List UInt8} {r : Bool} {d : UInt32}
    (h : recvHandshake e cs str r d = none) : recvAll 5 [] cs str = none := by
  unfold recvHandshake at h
  split at h
  · assumption
  · cases h
  · cases h

end

/-- for all hosts and scripts: a send that returns true wrote the five bytes once, and does return on a
script without a failure; the receiver then learns what was said and leaves the payload; a receiver that is
stopped by a failure or by the end of the stream returns false and changes nothing -/
theorem handshake_round_trip (client server : Endian) (reverse : Bool) (durationSec : UInt32) :
    (∀ cs out out', sendHandshake client reverse durationSec cs out = some (true, out') →
      out' = out ++ wire reverse durationSec) ∧
    (∀ cs out, Smooth cs → 5 ≤ amount cs →
      sendHandshake client reverse durationSec cs out =
        some (true, out ++ wire reverse durationSec)) ∧
    (∀ cs payload r d got rest,
      recvHandshake server cs (wire reverse durationSec ++ payload) r d = some (true, got, rest) →
      got = (reverse, durationSec) ∧ rest = payload) ∧
    (∀ cs payload r d, Smooth cs → 5 ≤ amount cs →
      recvHandshake server cs (wire reverse durationSec ++ payload) r d =
        some (true, (reverse, durationSec), payload)) ∧
    (∀ cs str r d got rest, recvHandshake server cs str r d = some (false, got, rest) →
      got = (r, d)) ∧
    (∀ pre c post str r d, recvHandshake server pre str r d = none → c.smooth = false →
      ∃ rest, recvHandshake server (pre ++ c :: post) str r d = some (false, (r, d), rest)) ∧
    (∀ cs str r d, str.length < 5 → Smooth cs → str.length < cs.countP Call.isReady →
      ∃ rest, recvHandshake server cs str r d = some (false, (r, d), rest)) := by
  refine ⟨?_, ?_, ?_, ?_, ?_, ?_, ?_⟩
  · intro cs out out' h
    exact sendHandshake_true client reverse durationSec h
  · intro cs out hs hn
    exact sendHandshake_smooth client reverse durationSec hs hn out
  · intro cs payload r d got rest h
    exact recvHandshake_true h
  · intro cs payload r d hs hn
    exact recvHandshake_smooth hs hn payload r d
  · intro cs str r d got rest h
    exact recvHandshake_false h
  · intro pre c post str r d hw hc
    exact recvHandshake_of_false r d (recvAll_fails hc post pre [] str (recvHandshake_waits hw))
  · intro cs str r d hlen hs hn
    exact recvHandshake_of_false r d
      (recvAll_short cs [] str hs (by rw [List.length_nil]; omega) hn)

/-- a big-endian client and a little-endian server, with short counts and interrupted calls -/
theorem handshake_round_trip_short :
    sendHandshake .big true 10 [.ready 1, .failed .again 1, .ready 0, .ready 7] [] =
      some (true, wire true 10) ∧
    recvHandshake .little [.failed .intr 1, .ready 2, .ready 9] (wire true 10 ++ [7, 8]) false 0 =
      some (true, (true, 10), [7, 8]) ∧
    ∃ rest, recvHandshake .little [.ready 2, .failed .again 0] (wire true 10) false 3 =
      some (false, (false, 3), rest) := by
  obtain ⟨-, hsend, -, hrecv, -, hfail, -⟩ := handshake_round_trip .big .little true 10
  refine ⟨?_, ?_, ?_⟩
  · exact hsend _ [] (by decide) (by decide)
  · exact hrecv _ _ _ _ (by decide) (by decide)
  · exact hfail [.ready 2] _ [] _ _ _ (by decide +kernel) (by decide)

end UringPerf.Net
