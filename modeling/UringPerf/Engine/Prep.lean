import UringPerf.Engine.Context
import Mathlib.Logic.Function.Basic

/-!
# The engine: filling in submission entries

`UringEngine` of `src/uring_engine.cpp`.  Every `prep_*` takes one entry (`io_uring_get_sqe`) and
reports whether there was one; `queue` is that common part, so each of them is `queue` of its own
entry (`prepSend_eq` for the two sends, by definition for the others).

The provided buffer ring (`RecvPool`) is the memory `io_uring_buf_ring_add` writes: `tail` is the
16-bit tail, slot `(tail + offset) & mask` gets the entry.
-/

namespace UringPerf
open Uring

/-! ## the provided buffer ring -/

def nextPow2 (v : UInt32) : UInt32 :=
  if v == 0 then 1
  else
    let v := v - 1
    let v := v ||| (v >>> 1)
    let v := v ||| (v >>> 2)
    let v := v ||| (v >>> 4)
    let v := v ||| (v >>> 8)
    let v := v ||| (v >>> 16)
    v + 1

structure BufEntry where
  addr : Nat
  len : Nat
  bid : Nat
deriving DecidableEq, Repr

/-- `base` is `recv_buf_mem_` -/
structure RecvPool where
  base : Nat
  count : Nat
  size : Nat
  bgid : Nat
  tail : Nat
  slots : Nat → BufEntry

def RecvPool.mask (p : RecvPool) : Nat := p.count - 1

/-- `io_uring_buf_ring_add` -/
def RecvPool.add (p : RecvPool) (e : BufEntry) (offset : Nat) : RecvPool :=
  { p with slots := Function.update p.slots ((p.tail + offset) &&& p.mask) e }

/-- `io_uring_buf_ring_advance` -/
def RecvPool.advance (p : RecvPool) (n : Nat) : RecvPool := { p with tail := (p.tail + n) % 2^16 }

def RecvPool.entry (p : RecvPool) (id : Nat) : BufEntry := ⟨p.base + id * p.size, p.size, id⟩

/-- `setup_multishot_recv` after the kernel and the allocator have agreed: every buffer is added -/
def setupMultishotRecv (base : Nat) (bufCount : UInt32) (bufSize bgid : Nat) : RecvPool :=
  let n := (nextPow2 bufCount).toNat
  let p : RecvPool := ⟨base, n, bufSize, bgid, 0, fun _ => ⟨0, 0, 0⟩⟩
  ((List.range n).foldl (fun p i => p.add (p.entry (i % 2^16)) i) p).advance n

def RecvPool.returnRecvBuffer (p : RecvPool) (bufId : Nat) : RecvPool :=
  (p.add (p.entry bufId) 0).advance 1

/-! ## the engine -/

/-- what has been registered with the ring -/
structure Registered where
  buffers : Bool
  files : Bool
  zcSupported : Bool
deriving DecidableEq, Repr

structure UringEngine where
  ring : IoRing Sqe
  reg : Registered
  pool : RecvPool

namespace UringEngine
variable (e : UringEngine)

/-- `io_uring_get_sqe`, then the entry is filled in -/
def queue (o : Sqe) : Bool × UringEngine :=
  let p := e.ring.push o
  (p.1, { e with ring := p.2 })

def submit : UringEngine := { e with ring := e.ring.submit }

def cqeSeen : UringEngine := { e with ring := e.ring.seen }

def returnRecvBuffer (bufId : Nat) : UringEngine :=
  { e with pool := e.pool.returnRecvBuffer bufId }

end UringEngine

section
variable (reg : Registered) (bgid : Nat)

/-- the entry of `prep_send_standard`: the buffer index is set without its flag -/
def sendStandardSqe (fd : Int) (buf : Option Ptr) (len : Nat) (ctx : IOContext)
    (useFixedFile : Bool) : Sqe where
  opcode := .send
  fd := fd
  buf := buf
  len := len
  bufIndex := if reg.buffers then ctx.bufIdx else 0
  fixedBuf := false
  fixedFile := useFixedFile && reg.files
  bufferSelect := false
  bufGroup := 0
  userData := ctx

/-- the entry of `prep_send_zc` -/
def sendZcSqe (fd : Int) (buf : Option Ptr) (len bufIdx : Nat) (ctx : IOContext)
    (useFixedFile : Bool) : Sqe where
  opcode := .sendZc
  fd := fd
  buf := buf
  len := len
  bufIndex := if reg.buffers then bufIdx else 0
  fixedBuf := reg.buffers
  fixedFile := useFixedFile && reg.files
  bufferSelect := false
  bufGroup := 0
  userData := ctx

def recvSqe (fd : Int) (buf : Option Ptr) (len bufIdx : Nat) (ctx : IOContext)
    (useFixedFile : Bool) : Sqe where
  opcode := .recv
  fd := fd
  buf := buf
  len := len
  bufIndex := if reg.buffers then bufIdx else 0
  fixedBuf := false
  fixedFile := useFixedFile && reg.files
  bufferSelect := false
  bufGroup := 0
  userData := ctx

def acceptSqe (listenFd : Int) (ctx : IOContext) : Sqe where
  opcode := .accept
  fd := listenFd
  buf := none
  len := 0
  bufIndex := 0
  fixedBuf := false
  fixedFile := false
  bufferSelect := false
  bufGroup := 0
  userData := ctx

def recvMultishotSqe (fd : Int) (ctx : IOContext) (useFixedFile : Bool) : Sqe where
  opcode := .recvMultishot
  fd := fd
  buf := none
  len := 0
  bufIndex := 0
  fixedBuf := false
  fixedFile := useFixedFile && reg.files
  bufferSelect := true
  bufGroup := bgid
  userData := ctx

/-- the entry the loops queue for a send context: `prep_send_zc` or `prep_send_standard` -/
def sendSqe (zeroCopy : Bool) (ctx : IOContext) (useFixedFile : Bool) : Sqe :=
  if zeroCopy then
    if reg.zcSupported then sendZcSqe reg ctx.fd ctx.bufPtr ctx.length ctx.bufIdx ctx useFixedFile
    else sendStandardSqe reg ctx.fd ctx.bufPtr ctx.length ctx false
  else sendStandardSqe reg ctx.fd ctx.bufPtr ctx.length ctx useFixedFile

variable (zeroCopy : Bool) (ctx : IOContext) (ff : Bool)

@[simp] theorem sendSqe_userData : (sendSqe reg zeroCopy ctx ff).userData = ctx := by
  unfold sendSqe
  cases zeroCopy <;> cases reg.zcSupported <;> rfl

@[simp] theorem sendSqe_fd : (sendSqe reg zeroCopy ctx ff).fd = ctx.fd := by
  unfold sendSqe
  cases zeroCopy <;> cases reg.zcSupported <;> rfl

@[simp] theorem sendSqe_buf : (sendSqe reg zeroCopy ctx ff).buf = ctx.bufPtr := by
  unfold sendSqe
  cases zeroCopy <;> cases reg.zcSupported <;> rfl

theorem sendSqe_opcode : (sendSqe reg zeroCopy ctx ff).opcode = .send ∨
    (sendSqe reg zeroCopy ctx ff).opcode = .sendZc := by
  unfold sendSqe
  cases zeroCopy with
  | false => exact Or.inl rfl
  | true =>
    cases reg.zcSupported with
    | false => exact Or.inl rfl
    | true => exact Or.inr rfl

end

namespace UringEngine
variable (e : UringEngine)

def prepSendStandard (fd : Int) (buf : Option Ptr) (len : Nat) (ctx : IOContext)
    (useFixedFile : Bool) : Bool × UringEngine :=
  e.queue (sendStandardSqe e.reg fd buf len ctx useFixedFile)

/-- without kernel support the plain send is used, and the fixed-file flag is not passed on -/
def prepSendZc (fd : Int) (buf : Option Ptr) (len bufIdx : Nat) (ctx : IOContext)
    (useFixedFile : Bool) : Bool × UringEngine :=
  if !e.reg.zcSupported then e.prepSendStandard fd buf len ctx false
  else e.queue (sendZcSqe e.reg fd buf len bufIdx ctx useFixedFile)

def prepRecv (fd : Int) (buf : Option Ptr) (len bufIdx : Nat) (ctx : IOContext)
    (useFixedFile : Bool) : Bool × UringEngine :=
  e.queue (recvSqe e.reg fd buf len bufIdx ctx useFixedFile)

def prepAccept (listenFd : Int) (ctx : IOContext) : Bool × UringEngine :=
  e.queue (acceptSqe listenFd ctx)

def prepRecvMultishot (fd : Int) (ctx : IOContext) (useFixedFile : Bool) : Bool × UringEngine :=
  e.queue (recvMultishotSqe e.reg e.pool.bgid fd ctx useFixedFile)

/-- `if (config_.zero_copy) prep_send_zc(..) else prep_send_standard(..)` on a send context -/
def prepSend (zeroCopy : Bool) (ctx : IOContext) (useFixedFile : Bool) : Bool × UringEngine :=
  if zeroCopy then e.prepSendZc ctx.fd ctx.bufPtr ctx.length ctx.bufIdx ctx useFixedFile
  else e.prepSendStandard ctx.fd ctx.bufPtr ctx.length ctx useFixedFile

theorem prepSend_eq (zeroCopy : Bool) (ctx : IOContext) (useFixedFile : Bool) :
    e.prepSend zeroCopy ctx useFixedFile = e.queue (sendSqe e.reg zeroCopy ctx useFixedFile) := by
  cases zeroCopy with
  | false => rfl
  | true =>
    show e.prepSendZc _ _ _ _ _ _ = e.queue (if e.reg.zcSupported then _ else _)
    unfold prepSendZc
    cases e.reg.zcSupported <;> rfl

@[simp] theorem queue_ring (o : Sqe) : (e.queue o).2.ring = (e.ring.push o).2 := rfl
@[simp] theorem queue_reg (o : Sqe) : (e.queue o).2.reg = e.reg := rfl

end UringEngine
end UringPerf
