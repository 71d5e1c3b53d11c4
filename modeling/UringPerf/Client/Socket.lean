import UringPerf.Client.Teardown

/-!
# Where a client sends to

The descriptor of an entry is a number of the process, or an index into the registered files, as its flag says.  The
send contexts hold one or the other, and the flag is passed to the engine on its own.

* `resolve`, `registeredBuf`   the descriptor and the registered buffer that the kernel takes for an entry;
* `OwnSend`                    the entry sends a buffer of the pool on the client's socket;
* `sendOp_resolve_iff`, `sendOp_index_iff`   for which entries of the pool this is so;
* `own_sends_iff`              and for which clients it is so in every run.
-/

namespace UringPerf
namespace Client
open Uring

/-- the descriptor an entry is about; an index that is not in the table has none -/
def resolve (files : List Int) (o : Sqe) : Option Int :=
  if o.fixedFile then if 0 ≤ o.fd then files[o.fd.toNat]? else none else some o.fd

/-- the buffer with the index of the entry; `buf_index` has 16 bits -/
def registeredBuf (buffers : List Ptr) (o : Sqe) : Option Ptr := buffers[o.bufIndex % 2^16]?

section
variable (L : Setup)

/-- what `register_files` and `register_buffers` have entered -/
def Setup.files : List Int := if L.sendReg.files then [L.sockfd] else []

def Setup.buffers : List Ptr := if L.sendReg.buffers then poolBuffers L else []

/-- a send of the context `i` of the pool on the client's own socket -/
structure OwnSend (o : Sqe) : Prop where
  socket : resolve L.files o = some L.sockfd
  context : ∃ i < L.config.inFlight, o.userData = L.sendCtx i ∧ o.buf = (L.sendCtx i).bufPtr ∧
    o.len = (L.sendCtx i).length
  index : L.sendReg.buffers = true → registeredBuf L.buffers o = o.buf
  fixed : o.fixedBuf = true → L.sendReg.buffers = true

/-- the fallback of a zero-copy send to a plain one, with a registered file -/
def fallsBack : Bool := L.config.zeroCopy && !L.zcSupported && L.useFixedFile

theorem sendOp_len (i : Nat) : (sendOp L i).len = L.config.bufSize := by
  unfold sendOp sendSqe
  cases L.config.zeroCopy <;> cases L.sendReg.zcSupported <;> rfl

theorem sendOp_fixedBuf {i : Nat} (h : (sendOp L i).fixedBuf = true) : L.sendReg.buffers = true := by
  unfold sendOp sendSqe at h
  split at h
  · split at h
    · exact h
    · cases h
  · cases h

theorem sendOp_bufIndex (h : L.sendReg.buffers = true) (i : Nat) : (sendOp L i).bufIndex = i := by
  have e : (if L.sendReg.buffers = true then i else 0) = i := if_pos h
  unfold sendOp sendSqe
  cases L.config.zeroCopy <;> cases L.sendReg.zcSupported <;> exact e

/-- the fallback drops the flag -/
theorem sendOp_fixedFile (i : Nat) : (sendOp L i).fixedFile = (L.useFixedFile && !fallsBack L) := by
  have hfiles : (L.useFixedFile && L.sendReg.files) = L.useFixedFile := Bool.and_self _
  have hzc : L.sendReg.zcSupported = L.zcSupported := rfl
  unfold sendOp sendSqe fallsBack
  rw [hzc]
  cases L.config.zeroCopy with
  | false =>
    rw [if_neg Bool.false_ne_true, Bool.false_and, Bool.false_and, Bool.not_false, Bool.and_true]
    exact hfiles
  | true =>
    rw [if_pos rfl, Bool.true_and]
    cases L.zcSupported with
    | true =>
      rw [if_pos rfl, Bool.not_true, Bool.false_and, Bool.not_false, Bool.and_true]
      exact hfiles
    | false =>
      rw [if_neg Bool.false_ne_true, Bool.not_false, Bool.true_and, Bool.and_not_self]
      rfl

theorem sendOp_fd (i : Nat) : (sendOp L i).fd = L.sendFd := sendSqe_fd _ _ _ _

/-- **Without its flag the index 0 is a descriptor.** -/
theorem sendOp_resolve_iff (i : Nat) :
    resolve L.files (sendOp L i) = some L.sockfd ↔ (fallsBack L = true → L.sockfd = 0) := by
  unfold resolve
  rw [sendOp_fixedFile, sendOp_fd]
  unfold Setup.sendFd
  cases hff : L.useFixedFile with
  | false =>
    have hfb : fallsBack L = false := by
      unfold fallsBack
      rw [hff, Bool.and_false]
    rw [hfb]
    exact iff_of_true rfl nofun
  | true =>
    have hfiles : L.files = [L.sockfd] := by
      unfold Setup.files
      exact if_pos hff
    rw [hfiles]
    cases fallsBack L with
    | false => exact iff_of_true rfl nofun
    | true =>
      show some (0 : Int) = some L.sockfd ↔ _
      rw [Option.some_inj, eq_comm]
      exact ⟨fun h _ => h, fun h => h rfl⟩

theorem sendOp_index_iff (h : L.sendReg.buffers = true) {i : Nat} (hi : i < L.config.inFlight) :
    registeredBuf L.buffers (sendOp L i) = (sendOp L i).buf ↔ i < 2^16 := by
  have hget : ∀ j < L.config.inFlight, (poolBuffers L)[j]? = some ⟨.pool, j⟩ := by
    intro j hj
    unfold poolBuffers
    rw [List.getElem?_map, List.getElem?_range hj]
    rfl
  have hbufs : L.buffers = poolBuffers L := if_pos h
  unfold registeredBuf
  rw [sendOp_bufIndex L h, sendOp_buf, hbufs, hget _ (Nat.lt_of_le_of_lt (Nat.mod_le _ _) hi), Option.some_inj]
  constructor
  · intro e
    have e' : i % 2^16 = i := congrArg Ptr.idx e
    rw [← e']
    exact Nat.mod_lt _ (by decide)
  · intro hlt
    rw [Nat.mod_eq_of_lt hlt]

theorem ownSend_iff {i : Nat} (hi : i < L.config.inFlight) :
    OwnSend L (sendOp L i) ↔
      (fallsBack L = true → L.sockfd = 0) ∧ (L.sendReg.buffers = true → i < 2^16) := by
  constructor
  · intro h
    exact ⟨(sendOp_resolve_iff L i).mp h.socket, fun hb => (sendOp_index_iff L hb hi).mp (h.index hb)⟩
  · rintro ⟨hs, hx⟩
    refine ⟨(sendOp_resolve_iff L i).mpr hs, ⟨i, hi, ?_, sendOp_buf L i, sendOp_len L i⟩,
      fun hb => (sendOp_index_iff L hb hi).mpr (hx hb), sendOp_fixedBuf L⟩
    exact sendSqe_userData _ _ _ _

/-- the entry that a call queues carries the arguments of the call -/
def Carries (fd : Int) (buf : Option Ptr) (len : Nat) (ctx : IOContext) (o : Sqe) : Prop :=
  o.userData = ctx ∧ o.fd = fd ∧ o.buf = buf ∧ o.len = len

/-- **Every send goes to the client's own socket** exactly if no zero-copy send with a registered file falls back to a
plain one, and the indices of the buffers fit into 16 bits.  Every call queues an entry with its own context. -/
theorem own_sends_iff (cap : Nat) :
    (∀ (e : UringEngine) fd buf len idx ctx ff,
      (∃ o, Carries fd buf len ctx o ∧ e.prepSendZc fd buf len idx ctx ff = e.queue o) ∧
      ∃ o, Carries fd buf len ctx o ∧ e.prepSendStandard fd buf len ctx ff = e.queue o) ∧
    ((∀ s, Trans.Reach (sendStep L) (sendStart L cap) s → ∀ o ∈ s.ring.outstanding, OwnSend L o) ↔
      (0 < min cap L.config.inFlight → fallsBack L = true → L.sockfd = 0) ∧
      (L.sendReg.buffers = true → min cap L.config.inFlight ≤ 2^16)) := by
  refine ⟨fun e fd buf len idx ctx ff => ⟨?_, _, ⟨rfl, rfl, rfl, rfl⟩, rfl⟩, ?_⟩
  · unfold UringEngine.prepSendZc
    cases e.reg.zcSupported with
    | true => exact ⟨_, ⟨rfl, rfl, rfl, rfl⟩, rfl⟩
    | false => exact ⟨_, ⟨rfl, rfl, rfl, rfl⟩, rfl⟩
  have hprimed := send_primed L cap
  -- the entries of all runs are those of the priming loop
  have hall : (∀ s, Trans.Reach (sendStep L) (sendStart L cap) s → ∀ o ∈ s.ring.outstanding, OwnSend L o) ↔
      ∀ i < min cap L.config.inFlight, OwnSend L (sendOp L i) := by
    constructor
    · intro h i hi
      exact h _ Trans.Reach.refl _ (hprimed.ops.mpr ⟨i, hi, rfl⟩)
    · intro h s hr o ho
      have hinv : PoolInv _ (poolBuffers L) L.sendReg (sendOp L) s := hprimed.reach (send_rotates L) hr
      obtain ⟨i, hi, rfl⟩ := hinv.ops o ho
      exact h i hi
  rw [hall]
  constructor
  · intro h
    refine ⟨fun hpos => ((ownSend_iff L (by omega)).mp (h 0 hpos)).1, fun hb => ?_⟩
    by_contra hlt
    have hlast := ((ownSend_iff L (by omega)).mp (h (2^16) (by omega))).2 hb
    omega
  · rintro ⟨hs, hb⟩ i hi
    exact (ownSend_iff L (by omega)).mpr ⟨hs (by omega), fun h => Nat.lt_of_lt_of_le hi (hb h)⟩

end

/-- a zero-copy client with a registered file, on a kernel without zero-copy sends -/
def fallbackSetup : Setup := { worker { zeroCopy := true } with zcSupported := false }

/-- **The fallback sends to descriptor 0**, not to the socket 5. -/
theorem fallback_wrong_socket : ∃ s, Trans.Reach (sendStep fallbackSetup) (sendStart fallbackSetup 256) s ∧
    ∃ o ∈ s.ring.outstanding, o.opcode = .send ∧ resolve fallbackSetup.files o = some 0 ∧ fallbackSetup.sockfd = 5 := by
  have h : ∃ s, Trans.Reach (sendStep fallbackSetup) (sendStart fallbackSetup 256) s ∧
      s.ring.outstanding.any (fun o => decide (o.opcode = .send ∧ resolve fallbackSetup.files o = some 0)) = true :=
    Trans.exists_reach [] (by decide +kernel)
  obtain ⟨s, hs, h⟩ := h
  obtain ⟨o, ho, h⟩ := List.any_eq_true.mp h
  obtain ⟨h1, h2⟩ := of_decide_eq_true h
  exact ⟨s, hs, o, ho, h1, h2, rfl⟩

end Client
end UringPerf
