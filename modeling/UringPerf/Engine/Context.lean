import UringPerf.Base.Ring

/-!
# Contexts, buffers and submission entries

`IOContext` of `include/uring_engine.hpp` and the `io_uring_sqe` fields the program fills in.

A pointer is named by who allocated it and by the index of the allocation (`Ptr`), so that two
allocations never share a name.  A connection is a descriptor number together with how often that
number has been handed out (`Conn`).  Contexts are not changed after they have been filled in, so a
submission entry carries the context its `user_data` points to.
-/

namespace UringPerf
open Uring

def EAGAIN : Int := 11
def EWOULDBLOCK : Int := 11
def ENOMEM : Int := 12
def ENOSPC : Int := 28
def ENOBUFS : Int := 105

/-- the result asks for the same operation again -/
def isAgain (res : Int) : Bool := res == -EAGAIN || res == -EWOULDBLOCK

/-- the result of a send or a receive that is to be repeated -/
def isRepeat (res : Int) : Bool := decide (0 < res) || isAgain res

/-- the `gen`-th connection on the descriptor number `fd` -/
structure Conn where
  fd : Int
  gen : Nat
deriving DecidableEq, Repr

/-- who allocated a context or a buffer -/
inductive Owner where
  | acceptCtx
  | msCtx
  | pool
  | session (conn : Conn)
deriving DecidableEq, Repr

structure Ptr where
  owner : Owner
  idx : Nat
deriving DecidableEq, Repr

inductive IOType where
  | accept
  | send
  | recv
  | timer
deriving DecidableEq, Repr

/-- `addr` is the address of the context itself -/
structure IOContext where
  addr : Ptr
  type : IOType
  fd : Int
  bufIdx : Nat
  bufPtr : Option Ptr
  length : Nat
  streamId : Nat
deriving DecidableEq, Repr

inductive Opcode where
  | accept
  | send
  | sendZc
  | recv
  | recvMultishot
  | recvZc
deriving DecidableEq, Repr

structure Sqe where
  opcode : Opcode
  fd : Int
  buf : Option Ptr
  len : Nat
  bufIndex : Nat
  fixedBuf : Bool
  fixedFile : Bool
  bufferSelect : Bool
  bufGroup : Nat
  userData : IOContext
deriving DecidableEq, Repr

def Opcode.kind : Opcode → Kind
  | .accept => .once
  | .send => .once
  | .sendZc => .zerocopy
  | .recv => .once
  | .recvMultishot => .multishot
  | .recvZc => .multishot

/-- `IORING_OP_SEND` and `IORING_OP_SEND_ZC` -/
def Opcode.sends (o : Opcode) : Bool := o == .send || o == .sendZc

def Sqe.kind (o : Sqe) : Kind := o.opcode.kind

/-- the connection an entry was submitted for -/
def Sqe.conn (o : Sqe) : Option Conn :=
  match o.userData.addr.owner with
  | .session c => some c
  | _ => none

end UringPerf
