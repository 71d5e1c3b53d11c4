import Mathlib

/-!
# Moving a buffer over a byte stream

The retry loops of `net_utils.cpp`.  What the kernel answers is a script of calls, one for each turn of a
loop; a loop whose script has run out is still waiting.

* `Call`              one `send` or `recv`, with the `poll` that follows a transient error;
* `sendAll, recvAll`  the loops;
* `Smooth, amount`    scripts without a failure, and how many bytes they offer to move;
* `sendAll_out`       a returned `sendAll` wrote a front part of the buffer, once and in order;
* `recvAll_split`     a returned `recvAll` took a front part of the stream and nothing else.
-/

namespace UringPerf.Net

inductive Errno where
  | again
  | wouldBlock
  | intr
  | other
  deriving DecidableEq, Repr

/-- the errors after which both loops wait with `poll` -/
def Errno.transient : Errno → Bool
  | .other => false
  | _ => true

/-- one turn: up to `k + 1` bytes can be moved, or the call returns 0, or it fails and `poll`, if it is
called, returns `poll` -/
inductive Call where
  | ready (k : Nat)
  | zero
  | failed (errno : Errno) (poll : Int)
  deriving DecidableEq, Repr

/-- the value of the call when `most` bytes can be moved at most -/
def Call.result (most : Nat) : Call → Int
  | .ready k => (min (k + 1) most : Nat)
  | .zero => 0
  | .failed _ _ => -1

/-- `errno` is one of the transient ones -/
def Call.transient : Call → Bool
  | .failed e _ => e.transient
  | _ => false

def Call.poll : Call → Int
  | .failed _ p => p
  | _ => 0

/-- `send_all` with `sent` bytes of `buf` already written; the stream holds `out` -/
def sendAll (buf : List UInt8) : Nat → List Call → List UInt8 → Option (Bool × List UInt8)
  | sent, [], out => if sent < buf.length then none else some (true, out)
  | sent, c :: cs, out =>
    if sent < buf.length then
      let n := c.result (buf.length - sent)
      if 0 < n then sendAll buf (sent + n.toNat) cs (out ++ (buf.drop sent).take n.toNat)
      else if n < 0 && c.transient then
        if c.poll ≤ 0 then some (false, out) else sendAll buf sent cs out
      else some (false, out)
    else some (true, out)

/-- `recv_all` of `len` bytes with `got` already read; the stream still holds `str`, and a `recv` on a
stream with nothing left returns 0 -/
def recvAll (len : Nat) : List UInt8 → List Call → List UInt8 →
    Option (Bool × List UInt8 × List UInt8)
  | got, [], str => if got.length < len then none else some (true, got, str)
  | got, c :: cs, str =>
    if got.length < len then
      let n := c.result (min (len - got.length) str.length)
      if 0 < n then recvAll len (got ++ str.take n.toNat) cs (str.drop n.toNat)
      else if n = 0 then some (false, got, str)
      else if c.transient then
        if c.poll ≤ 0 then some (false, got, str) else recvAll len got cs str
      else some (false, got, str)
    else some (true, got, str)

/-- the call moves something, or waits and is woken up -/
def Call.smooth : Call → Bool
  | .ready _ => true
  | .zero => false
  | .failed e p => e.transient && decide (0 < p)

def Smooth (cs : List Call) : Prop := ∀ c ∈ cs, c.smooth = true

instance (cs : List Call) : Decidable (Smooth cs) := inferInstanceAs (Decidable (∀ c ∈ cs, _))

def Call.isReady : Call → Bool
  | .ready _ => true
  | _ => false

def Call.offer : Call → Nat
  | .ready k => k + 1
  | _ => 0

/-- how many bytes the script offers to move -/
def amount (cs : List Call) : Nat := (cs.map Call.offer).sum

theorem amount_cons (c : Call) (cs : List Call) : amount (c :: cs) = c.offer + amount cs := rfl

theorem Smooth.tail {c : Call} {cs : List Call} (h : Smooth (c :: cs)) : Smooth cs :=
  fun d hd => h d (List.mem_cons_of_mem c hd)

theorem Smooth.head {c : Call} {cs : List Call} (h : Smooth (c :: cs)) : c.smooth = true :=
  h c List.mem_cons_self

/-- what both loops do after an error: wait and go on, or give up -/
theorem wait_eq {α : Type*} (e : Errno) (p : Int) (stop go : α) :
    (if e.transient = true then if p ≤ 0 then stop else go else stop) =
      if (e.transient && decide (0 < p)) = true then go else stop := by
  cases e.transient with
  | false => rfl
  | true =>
    by_cases hp : 0 < p
    · rw [if_pos rfl, if_neg (Int.not_le.mpr hp), decide_eq_true hp]
      rfl
    · rw [if_pos rfl, if_pos (Int.not_lt.mp hp), decide_eq_false hp]
      rfl

/-! ## sending -/

section
variable {buf : List UInt8} {sent : Nat}

theorem sendAll_done (h : buf.length ≤ sent) (cs : List Call) (out : List UInt8) :
    sendAll buf sent cs out = some (true, out) := by
  cases cs <;> exact if_neg (Nat.not_lt.mpr h)

theorem sendAll_ready (h : sent < buf.length) (k : Nat) (cs : List Call) (out : List UInt8) :
    sendAll buf sent (.ready k :: cs) out =
      sendAll buf (sent + min (k + 1) (buf.length - sent)) cs
        (out ++ (buf.drop sent).take (min (k + 1) (buf.length - sent))) := by
  have hpos : (0 : Int) < (min (k + 1) (buf.length - sent) : Nat) := by omega
  rw [sendAll, if_pos h]
  exact if_pos hpos

theorem sendAll_zero (h : sent < buf.length) (cs : List Call) (out : List UInt8) :
    sendAll buf sent (.zero :: cs) out = some (false, out) := by
  rw [sendAll, if_pos h]
  rfl

theorem sendAll_failed (h : sent < buf.length) (e : Errno) (p : Int) (cs : List Call)
    (out : List UInt8) : sendAll buf sent (.failed e p :: cs) out =
      if e.transient && decide (0 < p) then sendAll buf sent cs out else some (false, out) := by
  rw [sendAll, if_pos h]
  exact wait_eq e p _ _

/-- the bytes moved by one turn and by the turns after it are next to each other -/
theorem take_take_drop {α : Type*} (l : List α) (a b k : Nat) :
    (l.drop a).take b ++ (l.drop (a + b)).take k = (l.drop a).take (b + k) := by
  rw [← List.drop_drop, ← List.take_add]

/-- whatever happens, a front part of the rest of the buffer has been written, and all of it if the
loop returns true -/
theorem sendAll_out (cs : List Call) : ∀ (sent : Nat) (out : List UInt8) (b : Bool)
    (out' : List UInt8), sendAll buf sent cs out = some (b, out') →
    ∃ k, out' = out ++ (buf.drop sent).take k ∧ (b = true → buf.length ≤ sent + k) := by
  induction cs with
  | nil =>
    intro sent out b out' h
    by_cases hlt : sent < buf.length
    · rw [sendAll, if_pos hlt] at h
      cases h
    · rw [sendAll_done (Nat.not_lt.mp hlt)] at h
      cases h
      exact ⟨0, (List.append_nil out).symm, fun _ => Nat.not_lt.mp hlt⟩
  | cons c cs ih =>
    intro sent out b out' h
    by_cases hlt : sent < buf.length
    · have stop : some (false, out) = some (b, out') →
          ∃ k, out' = out ++ (buf.drop sent).take k ∧ (b = true → buf.length ≤ sent + k) := by
        intro he
        cases he
        exact ⟨0, (List.append_nil out).symm, fun hb => nomatch hb⟩
      cases c with
      | ready k =>
        rw [sendAll_ready hlt] at h
        obtain ⟨j, hj, hb⟩ := ih _ _ b out' h
        refine ⟨min (k + 1) (buf.length - sent) + j, ?_, fun ht => ?_⟩
        · rw [hj, List.append_assoc, take_take_drop]
        · have := hb ht
          omega
      | zero =>
        rw [sendAll_zero hlt] at h
        exact stop h
      | failed e p =>
        rw [sendAll_failed hlt] at h
        split at h
        · exact ih sent out b out' h
        · exact stop h
    · rw [sendAll_done (Nat.not_lt.mp hlt)] at h
      cases h
      exact ⟨0, (List.append_nil out).symm, fun _ => Nat.not_lt.mp hlt⟩

/-- a `sendAll` that returns true has written the rest of the buffer -/
theorem sendAll_true {cs : List Call} {out out' : List UInt8}
    (h : sendAll buf sent cs out = some (true, out')) : out' = out ++ buf.drop sent := by
  obtain ⟨k, hk, hlen⟩ := sendAll_out cs sent out true out' h
  rw [hk, List.take_of_length_le]
  rw [List.length_drop]
  have := hlen rfl
  omega

/-- a script without a failure that offers enough bytes ends the loop -/
theorem sendAll_smooth (cs : List Call) : ∀ (sent : Nat) (out : List UInt8), Smooth cs →
    buf.length ≤ sent + amount cs → ∃ out', sendAll buf sent cs out = some (true, out') := by
  induction cs with
  | nil =>
    intro sent out _ hlen
    exact ⟨out, sendAll_done hlen [] out⟩
  | cons c cs ih =>
    intro sent out hs hlen
    rw [amount_cons] at hlen
    by_cases hlt : sent < buf.length
    · cases c with
      | ready k =>
        rw [sendAll_ready hlt]
        apply ih _ _ hs.tail
        replace hlen : buf.length ≤ sent + (k + 1 + amount cs) := hlen
        omega
      | zero => exact absurd hs.head Bool.false_ne_true
      | failed e p =>
        have he : (e.transient && decide (0 < p)) = true := hs.head
        rw [sendAll_failed hlt, if_pos he]
        apply ih _ _ hs.tail
        replace hlen : buf.length ≤ sent + (0 + amount cs) := hlen
        omega
    · exact ⟨out, sendAll_done (Nat.not_lt.mp hlt) _ out⟩

end

/-! ## receiving -/

section
variable {len : Nat} {got : List UInt8}

theorem recvAll_done (h : len ≤ got.length) (cs : List Call) (str : List UInt8) :
    recvAll len got cs str = some (true, got, str) := by
  cases cs <;> exact if_neg (Nat.not_lt.mpr h)

theorem recvAll_waits (h : got.length < len) (str : List UInt8) : recvAll len got [] str = none :=
  if_pos h

theorem recvAll_ready (h : got.length < len) {str : List UInt8} (hstr : 0 < str.length) (k : Nat)
    (cs : List Call) : recvAll len got (.ready k :: cs) str =
      recvAll len (got ++ str.take (min (k + 1) (min (len - got.length) str.length))) cs
        (str.drop (min (k + 1) (min (len - got.length) str.length))) := by
  have hpos : (0 : Int) < (min (k + 1) (min (len - got.length) str.length) : Nat) := by omega
  rw [recvAll, if_pos h]
  exact if_pos hpos

/-- the end of the stream -/
theorem recvAll_ended (h : got.length < len) (k : Nat) (cs : List Call) :
    recvAll len got (.ready k :: cs) [] = some (false, got, []) := by
  rw [recvAll, if_pos h]
  simp [Call.result]

theorem recvAll_failed (h : got.length < len) (e : Errno) (p : Int) (cs : List Call)
    (str : List UInt8) : recvAll len got (.failed e p :: cs) str =
      if e.transient && decide (0 < p) then recvAll len got cs str else some (false, got, str) := by
  rw [recvAll, if_pos h]
  exact wait_eq e p _ _

/-- a call that is not smooth ends an unfinished loop -/
theorem recvAll_stop (h : got.length < len) {c : Call} (hc : c.smooth = false) (cs : List Call)
    (str : List UInt8) : recvAll len got (c :: cs) str = some (false, got, str) := by
  cases c with
  | ready k => cases hc
  | zero =>
    rw [recvAll, if_pos h]
    rfl
  | failed e p =>
    rw [recvAll_failed h]
    exact if_neg (ne_true_of_eq_false hc)

/-- what has been read is what is missing from the stream; exactly `len` bytes if the loop returns true,
fewer if it returns false -/
theorem recvAll_split (cs : List Call) : ∀ (got str : List UInt8) (b : Bool) (buf rest : List UInt8),
    got.length ≤ len → recvAll len got cs str = some (b, buf, rest) →
    buf ++ rest = got ++ str ∧ buf.length ≤ len ∧ (b = true ↔ buf.length = len) := by
  induction cs with
  | nil =>
    intro got str b buf rest hle h
    by_cases hlt : got.length < len
    · rw [recvAll_waits hlt] at h
      cases h
    · rw [recvAll_done (Nat.not_lt.mp hlt)] at h
      cases h
      exact ⟨rfl, hle, iff_of_true rfl (by omega)⟩
  | cons c cs ih =>
    intro got str b buf rest hle h
    by_cases hlt : got.length < len
    · have stop : some (false, got, str) = some (b, buf, rest) →
          buf ++ rest = got ++ str ∧ buf.length ≤ len ∧ (b = true ↔ buf.length = len) := by
        intro he
        cases he
        exact ⟨rfl, hle, iff_of_false Bool.false_ne_true (by omega)⟩
      cases c with
      | ready k =>
        cases str with
        | nil =>
          rw [recvAll_ended hlt] at h
          exact stop h
        | cons x xs =>
          have hpos : 0 < (x :: xs).length := Nat.succ_pos _
          rw [recvAll_ready hlt hpos] at h
          obtain ⟨h1, h2⟩ := ih _ _ b buf rest (by
            rw [List.length_append, List.length_take]
            omega) h
          refine ⟨?_, h2⟩
          rw [h1, List.append_assoc, List.take_append_drop]
      | zero =>
        rw [recvAll_stop hlt rfl] at h
        exact stop h
      | failed e p =>
        rw [recvAll_failed hlt] at h
        split at h
        · exact ih got str b buf rest hle h
        · exact stop h
    · rw [recvAll_done (Nat.not_lt.mp hlt)] at h
      cases h
      exact ⟨rfl, hle, iff_of_true rfl (by omega)⟩

/-- a script without a failure that offers enough bytes of a stream that holds them ends the loop -/
theorem recvAll_smooth (cs : List Call) : ∀ (got str : List UInt8), Smooth cs →
    len ≤ got.length + amount cs → len ≤ got.length + str.length →
    ∃ buf rest, recvAll len got cs str = some (true, buf, rest) := by
  induction cs with
  | nil =>
    intro got str _ hlen _
    exact ⟨got, str, recvAll_done hlen [] str⟩
  | cons c cs ih =>
    intro got str hs hlen hstr
    rw [amount_cons] at hlen
    by_cases hlt : got.length < len
    · cases c with
      | ready k =>
        rw [recvAll_ready hlt (by omega)]
        replace hlen : len ≤ got.length + (k + 1 + amount cs) := hlen
        apply ih _ _ hs.tail
        · rw [List.length_append, List.length_take]
          omega
        · rw [List.length_append, List.length_take, List.length_drop]
          omega
      | zero => exact absurd hs.head Bool.false_ne_true
      | failed e p =>
        have he : (e.transient && decide (0 < p)) = true := hs.head
        rw [recvAll_failed hlt, if_pos he]
        replace hlen : len ≤ got.length + (0 + amount cs) := hlen
        exact ih got str hs.tail (by omega) hstr
    · exact ⟨got, str, recvAll_done (Nat.not_lt.mp hlt) _ str⟩

/-- a loop still waiting after `pre` returns false on the next failure -/
theorem recvAll_fails {c : Call} (hc : c.smooth = false) (post : List Call) (pre : List Call) :
    ∀ (got str : List UInt8), recvAll len got pre str = none →
    ∃ buf rest, recvAll len got (pre ++ c :: post) str = some (false, buf, rest) := by
  induction pre with
  | nil =>
    intro got str h
    by_cases hlt : got.length < len
    · exact ⟨got, str, recvAll_stop hlt hc post str⟩
    · rw [recvAll_done (Nat.not_lt.mp hlt)] at h
      cases h
  | cons d pre ih =>
    intro got str h
    by_cases hlt : got.length < len
    · cases d with
      | ready k =>
        cases str with
        | nil =>
          rw [recvAll_ended hlt] at h
          cases h
        | cons x xs =>
          have hpos : 0 < (x :: xs).length := Nat.succ_pos _
          rw [recvAll_ready hlt hpos] at h
          rw [List.cons_append, recvAll_ready hlt hpos]
          exact ih _ _ h
      | zero =>
        rw [recvAll_stop hlt rfl] at h
        cases h
      | failed e p =>
        rw [recvAll_failed hlt] at h
        rw [List.cons_append, recvAll_failed hlt]
        split at h
        · next he =>
          rw [if_pos he]
          exact ih got str h
        · cases h
    · rw [recvAll_done (Nat.not_lt.mp hlt)] at h
      cases h

/-- a stream that ends too early makes the loop return false after one call for each byte and one more -/
theorem recvAll_short (cs : List Call) : ∀ (got str : List UInt8), Smooth cs →
    got.length + str.length < len → str.length < cs.countP Call.isReady →
    ∃ buf rest, recvAll len got cs str = some (false, buf, rest) := by
  induction cs with
  | nil =>
    intro got str _ _ hn
    exact absurd hn (Nat.not_lt_zero _)
  | cons c cs ih =>
    intro got str hs hlen hn
    have hlt : got.length < len := by omega
    cases c with
    | ready k =>
      rw [List.countP_cons_of_pos rfl] at hn
      cases str with
      | nil => exact ⟨got, [], recvAll_ended hlt k cs⟩
      | cons x xs =>
        have hpos : 0 < (x :: xs).length := Nat.succ_pos _
        rw [recvAll_ready hlt hpos]
        apply ih _ _ hs.tail
        · rw [List.length_append, List.length_take, List.length_drop]
          omega
        · rw [List.length_drop]
          omega
    | zero => exact absurd hs.head Bool.false_ne_true
    | failed e p =>
      have he : (e.transient && decide (0 < p)) = true := hs.head
      rw [recvAll_failed hlt, if_pos he]
      rw [List.countP_cons_of_neg Bool.false_ne_true] at hn
      exact ih got str hs.tail hlen hn

end

end UringPerf.Net
