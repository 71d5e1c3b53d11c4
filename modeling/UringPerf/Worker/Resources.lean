import UringPerf.Base.Owns
import UringPerf.Engine.Prep
import UringPerf.Protocol.Ports
import UringPerf.Server.Descriptors
import UringPerf.Zcrx.Conns

/-!
# What a worker acquires and releases

The functions of `src/net_utils.cpp`, `src/uring_engine.cpp` and `src/worker.cpp` around the event loops: they create
sockets and rings, register and allocate, and give everything back, on the usual way as after each call that fails.  The
loops themselves are single calls here; what a loop leaves behind is its result: the connections of its table, and the
descriptors that the kernel has accepted into completions which the loop has not processed.

* `Sys`, `Resource`, `ledger`     the system calls, and what each of them gives or takes;
* `createListenSocket` .. `zcrxTeardown`   the functions that acquire and release, each with what it owns;
* `runClient`, `runServer`        the threads of the workers, from their first call to their last;
* `serverLeaves`, `zcrxLeaves`    what the models of the loops leave behind: their open descriptors, each once;
* `worker_releases`               what the workers have released when they return.

Left out are the calls whose results nobody reads (`setsockopt`, `fcntl`, the affinity of the thread).
-/

namespace UringPerf
namespace Resources
open Owning

/-! ## system calls -/

inductive Resource where
  | descriptor (fd : Int)
  | ring
  | registeredFiles
  | registeredBuffers
  | bufRing (entries : UInt32) (bgid : Nat)
  | memory (ptr : Nat)
  | mapping (ptr : Nat) (size : UInt64)
deriving DecidableEq

/-- the connections in the table when the loop of a server ends: the descriptor, and the buffers of the session -/
abbrev Connections := List (Int × List (Option Nat))

inductive Sys where
  | socket (udp : Bool)
  | bind (fd : Int) (port : UInt16)
  | listen (fd : Int)
  | inetPton (host : String)
  | gethostbyname (host : String)
  | connect (fd : Int) (port : UInt16)
  | close (fd : Int)
  | sendHandshake (fd : Int) (reverse : Bool) (durationSec : Nat)
  | queueInitParams (entries : Nat) (sqpoll : Bool)
  | queueInit (entries : Nat)
  | queueExit
  | registerFiles (fds : List Int)
  | unregisterFiles
  | registerBuffers (bufs : List (Option Nat))
  | unregisterBuffers
  | setupBufRing (entries : UInt32) (bgid : Nat)
  | freeBufRing (entries : UInt32) (bgid : Nat)
  | posixMemalign (size : Nat)
  | free (ptr : Nat)
  | pageSize
  | ifNametoindex (ifname : String)
  | mmap (size : UInt64)
  | munmap (ptr : Nat) (size : UInt64)
  | registerIfq (queueId : Nat)
  | clientLoop
  | serverLoop
  | zcrxLoop

/-- what a call returns; an allocation returns a pointer or fails -/
def Sys.Result : Sys → Type
  | .socket _ | .bind .. | .listen _ | .inetPton _ | .connect .. => Int
  | .gethostbyname _ | .sendHandshake .. | .setupBufRing .. => Bool
  | .queueInitParams .. | .queueInit _ | .registerFiles _ | .registerBuffers _ | .registerIfq _ => Int
  | .posixMemalign _ | .mmap _ => Option Nat
  | .pageSize => UInt64
  | .ifNametoindex _ => Nat
  | .serverLoop => Connections × List Int
  | .zcrxLoop => List Int × List Int
  | .clientLoop | .close _ | .queueExit | .unregisterFiles | .unregisterBuffers => Unit
  | .freeBufRing .. | .free _ | .munmap .. => Unit

abbrev P := Prog Sys Sys.Result

/-- a call that returns a negative number has failed -/
def ofRet (r : Resource) (ret : Int) : Multiset Resource := if ret < 0 then 0 else {r}

def ofFd (fd : Int) : Multiset Resource := ofRet (.descriptor fd) fd

def ofOk (r : Resource) (ok : Bool) : Multiset Resource := if ok then {r} else 0

def ofPtr : Option Nat → Multiset Resource
  | none => 0
  | some ptr => {.memory ptr}

def ofMap (size : UInt64) : Option Nat → Multiset Resource
  | none => 0
  | some ptr => {.mapping ptr size}

def ofPtrs (bufs : List (Option Nat)) : Multiset Resource := (bufs.map ofPtr).sum

def ofConnection (conn : Int × List (Option Nat)) : Multiset Resource := {.descriptor conn.1} + ofPtrs conn.2

def ofFds (fds : List Int) : Multiset Resource := (fds.map fun fd => {.descriptor fd}).sum

def ofConnections (conns : Connections) : Multiset Resource := (conns.map ofConnection).sum

def gives : (c : Sys) → c.Result → Multiset Resource
  | .socket _, fd => ofFd fd
  | .queueInitParams .., ret => ofRet .ring ret
  | .queueInit _, ret => ofRet .ring ret
  | .registerFiles _, ret => ofRet .registeredFiles ret
  | .registerBuffers _, ret => ofRet .registeredBuffers ret
  | .setupBufRing entries bgid, ok => ofOk (.bufRing entries bgid) ok
  | .posixMemalign _, ptr => ofPtr ptr
  | .mmap size, ptr => ofMap size ptr
  | .serverLoop, left => ofConnections left.1 + ofFds left.2
  | .zcrxLoop, left => ofFds left.1 + ofFds left.2
  | _, _ => 0

def takes : Sys → Multiset Resource
  | .close fd => {.descriptor fd}
  | .queueExit => {.ring}
  | .unregisterFiles => {.registeredFiles}
  | .unregisterBuffers => {.registeredBuffers}
  | .freeBufRing entries bgid => {.bufRing entries bgid}
  | .free ptr => {.memory ptr}
  | .munmap ptr size => {.mapping ptr size}
  | _ => 0

def ledger : Ledger Sys Sys.Result Resource := ⟨gives, takes⟩

def sys (c : Sys) : P c.Result := Prog.once c

section
variable (H : Multiset Resource)

/-- a call that acquires -/
theorem owns_get {c : Sys} (h : takes c = 0) : Owns ledger (sys c) H fun r => H + gives c r := Owns.acquire h H

/-- a call that does neither -/
theorem owns_skip {c : Sys} (ht : takes c = 0) (hg : ∀ r, gives c r = 0) : Owns ledger (sys c) H fun _ => H :=
  (owns_get H ht).congr rfl fun r => by rw [hg r, add_zero]

/-- a call that releases -/
theorem owns_put {c : Sys} (hg : ∀ r, gives c r = 0) : Owns ledger (sys c) (takes c + H) fun _ => H :=
  Owns.release hg H

end

/-! ## sockets -/

/-- `close(fd); return -1;` -/
def closeFailed (fd : Int) : P Int := do
  sys (.close fd)
  return -1

def createListenSocket (port : UInt16) (udp : Bool) : P Int := do
  let fd : Int ← sys (.socket udp)
  if fd < 0 then return -1
  else
    let bound : Int ← sys (.bind fd port)
    if bound < 0 then closeFailed fd
    else if udp then return fd
    else
      let listening : Int ← sys (.listen fd)
      if listening < 0 then closeFailed fd else return fd

/-- the host as an address, or by its name -/
def resolve (host : String) : P Bool := do
  let parsed : Int ← sys (.inetPton host)
  Prog.maybe (parsed ≤ 0) (sys (.gethostbyname host)) true

def createClientSocket (host : String) (port : UInt16) (udp : Bool) (localPort : UInt16) : P Int := do
  let fd : Int ← sys (.socket udp)
  if fd < 0 then return -1
  else
    let bound : Int ← Prog.maybe (Protocol.bindsLocally localPort) (sys (.bind fd localPort)) 0
    if bound < 0 then closeFailed fd
    else
      let resolved ← resolve host
      if !resolved then closeFailed fd
      else
        let connected : Int ← sys (.connect fd port)
        if connected < 0 then closeFailed fd else return fd

theorem ofFd_neg {fd : Int} (h : fd < 0) : ofFd fd = 0 := if_pos h

theorem ofFd_nonneg {fd : Int} (h : ¬ fd < 0) : ofFd fd = {.descriptor fd} := if_neg h

theorem owns_closeFailed {fd : Int} (h : ¬ fd < 0) : Owns ledger (closeFailed fd) (ofFd fd) ofFd := by
  rw [ofFd_nonneg h]
  refine (Owns.congr (owns_put 0 (c := .close fd) fun _ => rfl) (add_zero _).symm fun _ => rfl).bind fun _ => ?_
  exact Owns.ret rfl

theorem owns_createListenSocket (port : UInt16) (udp : Bool) : Owns ledger (createListenSocket port udp) 0 ofFd := by
  refine (owns_get 0 (c := .socket udp) rfl).bind fun (fd : Int) => ?_
  rw [zero_add]
  change Owns ledger (if fd < 0 then _ else _) (ofFd fd) ofFd
  split
  next h => exact Owns.ret (ofFd_neg h)
  next h =>
    refine (owns_skip _ rfl fun _ => rfl).bind fun (bound : Int) => ?_
    split
    · exact owns_closeFailed h
    · split
      · exact Owns.ret rfl
      · refine (owns_skip _ rfl fun _ => rfl).bind fun (listening : Int) => ?_
        split
        · exact owns_closeFailed h
        · exact Owns.ret rfl

theorem owns_resolve (host : String) (H : Multiset Resource) : Owns ledger (resolve host) H fun _ => H := by
  refine (owns_skip _ rfl fun _ => rfl).bind fun (parsed : Int) => ?_
  exact Owns.maybe (fun _ => owns_skip _ rfl fun _ => rfl) fun _ => rfl

theorem owns_createClientSocket (host : String) (port : UInt16) (udp : Bool) (localPort : UInt16) :
    Owns ledger (createClientSocket host port udp localPort) 0 ofFd := by
  refine (owns_get 0 (c := .socket udp) rfl).bind fun (fd : Int) => ?_
  rw [zero_add]
  change Owns ledger (if fd < 0 then _ else _) (ofFd fd) ofFd
  split
  next h => exact Owns.ret (ofFd_neg h)
  next h =>
    refine (Owns.maybe (fun _ => owns_skip _ rfl fun _ => rfl) fun _ => rfl).bind fun (bound : Int) => ?_
    split
    · exact owns_closeFailed h
    · refine (owns_resolve host _).bind fun resolved => ?_
      split
      · exact owns_closeFailed h
      · refine (owns_skip _ rfl fun _ => rfl).bind fun (connected : Int) => ?_
        split
        · exact owns_closeFailed h
        · exact Owns.ret rfl

/-! ## buffers -/

def allocateAlignedBuffer (size : Nat) : P (Option Nat) := sys (.posixMemalign size)

def freeAlignedBuffer : Option Nat → P Unit
  | none => pure ()
  | some ptr => sys (.free ptr)

def allocateBuffers (n size : Nat) : P (List (Option Nat)) := Prog.times (allocateAlignedBuffer size) n

def freeBuffers (bufs : List (Option Nat)) : P Unit := Prog.forAll freeAlignedBuffer bufs

theorem owns_freeAlignedBuffer (buf : Option Nat) : Owns ledger (freeAlignedBuffer buf) (ofPtr buf) fun _ => 0 := by
  cases buf with
  | none => exact Owns.ret rfl
  | some ptr => exact Owns.congr (owns_put 0 fun _ => rfl) (add_zero _).symm fun _ => rfl

theorem owns_allocateBuffers (n size : Nat) : Owns ledger (allocateBuffers n size) 0 ofPtrs :=
  Owns.times (Owns.congr (owns_get 0 rfl) rfl fun _ => zero_add _) n

theorem owns_freeBuffers (bufs : List (Option Nat)) : Owns ledger (freeBuffers bufs) (ofPtrs bufs) fun _ => 0 :=
  Owns.forAll owns_freeAlignedBuffer bufs

/-! ## `UringEngine` -/

/-- `recv_buf_count_`, `recv_bgid_` and `recv_buf_mem_` -/
structure RecvBufs where
  count : UInt32
  bgid : Nat
  mem : Nat

/-- `sqpoll_enabled_`, and the members that the destructor reads -/
structure Engine where
  sqpollEnabled : Bool
  buffersRegistered : Bool := false
  filesRegistered : Bool := false
  recvBufs : Option RecvBufs := none

def ofRecvBufs : Option RecvBufs → Multiset Resource
  | none => 0
  | some r => {.bufRing r.count r.bgid} + {.memory r.mem}

def Engine.held (e : Engine) : Multiset Resource :=
  ofOk .registeredBuffers e.buffersRegistered + (ofOk .registeredFiles e.filesRegistered +
    (ofRecvBufs e.recvBufs + {.ring}))

/-- the constructor: `sqpoll_enabled_`, or none if it throws -/
def Engine.construct (queueDepth : Nat) (useSqpoll : Bool) : P (Option Bool) := do
  let ret : Int ← sys (.queueInitParams queueDepth useSqpoll)
  if ret < 0 then
    let ret : Int ← sys (.queueInit queueDepth)
    if ret < 0 then return none else return some false
  else return some useSqpoll

def Engine.registerBuffers (bufs : List (Option Nat)) : P Bool := do
  if bufs.isEmpty then return false
  else
    let ret : Int ← sys (.registerBuffers bufs)
    return decide (0 ≤ ret)

def Engine.registerFiles (fds : List Int) : P Bool := do
  if fds.isEmpty then return false
  else
    let ret : Int ← sys (.registerFiles fds)
    return decide (0 ≤ ret)

def Engine.setupMultishotRecv (bufCount : UInt32) (bufSize bgid : Nat) : P (Option RecvBufs) := do
  let count := nextPow2 bufCount
  let ok : Bool ← sys (.setupBufRing count bgid)
  if !ok then return none
  else
    let mem : Option Nat ← sys (.posixMemalign (count.toNat * bufSize))
    match mem with
    | none =>
      sys (.freeBufRing count bgid)
      return none
    | some ptr => return some ⟨count, bgid, ptr⟩

def freeRecvBufs : Option RecvBufs → P Unit
  | none => pure ()
  | some r => do
    sys (.freeBufRing r.count r.bgid)
    sys (.free r.mem)

def Engine.destruct (e : Engine) : P Unit := do
  Prog.maybe e.buffersRegistered (sys .unregisterBuffers) ()
  Prog.maybe e.filesRegistered (sys .unregisterFiles) ()
  freeRecvBufs e.recvBufs
  sys .queueExit

theorem ofRet_eq (r : Resource) (ret : Int) : ofRet r ret = ofOk r (decide (0 ≤ ret)) := by
  unfold ofRet ofOk
  by_cases h : ret < 0
  · rw [if_pos h, if_neg (by simpa using h)]
  · rw [if_neg h, if_pos (by simpa using h)]

def ofNew : Option Bool → Multiset Resource
  | none => 0
  | some _ => {.ring}

theorem owns_construct (queueDepth : Nat) (useSqpoll : Bool) :
    Owns ledger (Engine.construct queueDepth useSqpoll) 0 ofNew := by
  refine (owns_get 0 (c := .queueInitParams queueDepth useSqpoll) rfl).bind fun (ret : Int) => ?_
  rw [zero_add]
  change Owns ledger (if ret < 0 then _ else _) (ofRet .ring ret) _
  split
  next h =>
    have hzero : ofRet .ring ret = 0 := if_pos h
    rw [hzero]
    refine (owns_get 0 (c := .queueInit queueDepth) rfl).bind fun (ret : Int) => ?_
    rw [zero_add]
    change Owns ledger (if ret < 0 then _ else _) (ofRet .ring ret) _
    split
    next h => exact Owns.ret (if_pos h)
    next h => exact Owns.ret (if_neg h)
  next h => exact Owns.ret (if_neg h)

theorem owns_registerBuffers (bufs : List (Option Nat)) :
    Owns ledger (Engine.registerBuffers bufs) 0 (ofOk .registeredBuffers) := by
  unfold Engine.registerBuffers
  split
  · exact Owns.ret rfl
  · refine (owns_get 0 (c := .registerBuffers bufs) rfl).bind fun (ret : Int) => Owns.ret ?_
    rw [zero_add]
    exact ofRet_eq _ ret

theorem owns_registerFiles (fds : List Int) :
    Owns ledger (Engine.registerFiles fds) 0 (ofOk .registeredFiles) := by
  unfold Engine.registerFiles
  split
  · exact Owns.ret rfl
  · refine (owns_get 0 (c := .registerFiles fds) rfl).bind fun (ret : Int) => Owns.ret ?_
    rw [zero_add]
    exact ofRet_eq _ ret

theorem owns_setupMultishotRecv (bufCount : UInt32) (bufSize bgid : Nat) :
    Owns ledger (Engine.setupMultishotRecv bufCount bufSize bgid) 0 ofRecvBufs := by
  refine (owns_get 0 (c := .setupBufRing (nextPow2 bufCount) bgid) rfl).bind fun (ok : Bool) => ?_
  rw [zero_add]
  change Owns ledger (if (!ok) = true then _ else _) (ofOk (.bufRing (nextPow2 bufCount) bgid) ok) _
  cases ok with
  | false => exact Owns.ret rfl
  | true =>
    refine (owns_get _ (c := .posixMemalign ((nextPow2 bufCount).toNat * bufSize)) rfl).bind fun (mem : Option Nat) => ?_
    cases mem with
    | none =>
      refine Owns.bind (Owns.congr (owns_put 0 (c := .freeBufRing (nextPow2 bufCount) bgid) fun _ => rfl) rfl
        fun _ => rfl) fun _ => ?_
      exact Owns.ret rfl
    | some ptr => exact Owns.ret rfl

theorem owns_freeRecvBufs (r : Option RecvBufs) (H : Multiset Resource) :
    Owns ledger (freeRecvBufs r) (ofRecvBufs r + H) fun _ => H := by
  cases r with
  | none => exact Owns.ret (zero_add H)
  | some r =>
    have heq : ofRecvBufs (some r) + H = takes (.freeBufRing r.count r.bgid) + (takes (.free r.mem) + H) :=
      add_assoc _ _ _
    rw [heq]
    exact (owns_put _ fun _ => rfl).bind fun _ => owns_put H fun _ => rfl

theorem owns_destruct (e : Engine) (H : Multiset Resource) : Owns ledger e.destruct (e.held + H) fun _ => H := by
  have hmaybe : ∀ (b : Bool) (r : Resource) (p : P Unit) (G : Multiset Resource),
      Owns ledger p ({r} + G) (fun _ => G) → Owns ledger (Prog.maybe b p ()) (ofOk r b + G) fun _ => G := by
    intro b r p G hp
    cases b with
    | true => exact hp
    | false => exact Owns.ret (zero_add G)
  unfold Engine.held
  rw [add_assoc, add_assoc, add_assoc]
  refine (hmaybe _ _ _ _ (owns_put _ fun _ => rfl)).bind fun _ => ?_
  refine (hmaybe _ _ _ _ (owns_put _ fun _ => rfl)).bind fun _ => ?_
  refine (owns_freeRecvBufs _ _).bind fun _ => ?_
  exact owns_put H fun _ => rfl

/-! ## zero-copy receive -/

structure ZcrxState where
  areaPtr : Nat
  ringPtr : Nat
  ringSize : UInt64

def zcrxAlignUp (v a : UInt64) : UInt64 := (v + a - 1) &&& ~~~(a - 1)

/-- the size of `io_uring_zcrx_rqe` -/
def sizeofRqe : UInt64 := 16

def zcrxSetup (ifname : String) (queueId : Nat) (areaSize : UInt64) (rqEntries : Nat) : P (Option ZcrxState) := do
  let pageSize : UInt64 ← sys .pageSize
  let ifindex : Nat ← sys (.ifNametoindex ifname)
  if ifindex = 0 then return none
  else
    let ringSize := zcrxAlignUp (UInt64.ofNat rqEntries * sizeofRqe + pageSize) pageSize
    let ring : Option Nat ← sys (.mmap ringSize)
    match ring with
    | none => return none
    | some ringPtr =>
      let area : Option Nat ← sys (.mmap areaSize)
      match area with
      | none =>
        sys (.munmap ringPtr ringSize)
        return none
      | some areaPtr =>
        let ret : Int ← sys (.registerIfq queueId)
        if ret ≠ 0 then
          sys (.munmap areaPtr areaSize)
          sys (.munmap ringPtr ringSize)
          return none
        else return some ⟨areaPtr, ringPtr, ringSize⟩

def zcrxTeardown (st : ZcrxState) (areaSize : UInt64) : P Unit := do
  sys (.munmap st.areaPtr areaSize)
  sys (.munmap st.ringPtr st.ringSize)

def ofZcrx (areaSize : UInt64) : Option ZcrxState → Multiset Resource
  | none => 0
  | some st => {.mapping st.areaPtr areaSize} + {.mapping st.ringPtr st.ringSize}

theorem owns_zcrxTeardown (st : ZcrxState) (areaSize : UInt64) (H : Multiset Resource) :
    Owns ledger (zcrxTeardown st areaSize) (ofZcrx areaSize (some st) + H) fun _ => H := by
  have heq : ofZcrx areaSize (some st) + H =
      takes (.munmap st.areaPtr areaSize) + (takes (.munmap st.ringPtr st.ringSize) + H) := add_assoc _ _ _
  rw [heq]
  exact (owns_put _ fun _ => rfl).bind fun _ => owns_put H fun _ => rfl

theorem owns_zcrxSetup (ifname : String) (queueId : Nat) (areaSize : UInt64) (rqEntries : Nat) :
    Owns ledger (zcrxSetup ifname queueId areaSize rqEntries) 0 (ofZcrx areaSize) := by
  refine (owns_skip _ rfl fun _ => rfl).bind fun (pageSize : UInt64) => ?_
  refine (owns_skip _ rfl fun _ => rfl).bind fun (ifindex : Nat) => ?_
  split
  · exact Owns.ret rfl
  · refine (owns_get 0 rfl).bind fun (ring : Option Nat) => ?_
    rw [zero_add]
    cases ring with
    | none => exact Owns.ret rfl
    | some ringPtr =>
      refine (owns_get _ rfl).bind fun (area : Option Nat) => ?_
      cases area with
      | none =>
        refine Owns.bind (Owns.congr (owns_put 0 fun _ => rfl) rfl fun _ => rfl) fun _ => ?_
        exact Owns.ret rfl
      | some areaPtr =>
        refine (owns_skip _ rfl fun _ => rfl).bind fun (ret : Int) => ?_
        split
        · refine Owns.bind (Owns.congr (owns_put _ fun _ => rfl) (add_comm _ _) fun _ => rfl) fun _ => ?_
          refine Owns.bind (Owns.congr (owns_put 0 fun _ => rfl) (add_zero _).symm fun _ => rfl) fun _ => ?_
          exact Owns.ret rfl
        · exact Owns.ret (add_comm _ _)

/-! ## the threads of the workers -/

/-- how a thread ends: `pool` is the member `buffer_pool_`, `unseen` are the descriptors accepted in completions that were
never processed; an exception that leaves the thread ends the program, with the socket `fd` open -/
inductive Exit where
  | returned (pool : List (Option Nat)) (unseen : List Int)
  | thrown (fd : Int)

def runClientReverseRecv (cfg : Config) (sockfd : Int) : P Exit := do
  let made ← Engine.construct cfg.queueDepth cfg.sqpoll
  match made with
  | none => return .thrown sockfd
  | some sqpoll =>
    let recvBufs ← Prog.maybe cfg.multishotRecv
      (Engine.setupMultishotRecv (UInt32.ofNat cfg.inFlight) cfg.bufSize 0) none
    let bufs ← Prog.maybe recvBufs.isNone (allocateBuffers cfg.inFlight cfg.bufSize) []
    sys .clientLoop
    freeBuffers bufs
    Engine.destruct { sqpollEnabled := sqpoll, recvBufs := recvBufs }
    return .returned [] []

/-- `queue_id`, of the type `uint32_t` -/
def queueId (cfg : Config) (thread : Nat) : Nat := (cfg.zcrxBaseQueue + thread) % 2 ^ 32

def runClientReverseRecvZcrx (cfg : Config) (thread : Nat) : P Exit := do
  let ret : Int ← sys (.queueInitParams cfg.zcrxCqEntries false)
  if ret < 0 then return .returned [] []
  else
    let areaSize := UInt64.ofNat cfg.zcrxAreaSize
    let zst ← zcrxSetup cfg.zcrxIfname (queueId cfg thread) areaSize cfg.zcrxRqEntries
    match zst with
    | none =>
      sys .queueExit
      return .returned [] []
    | some zst =>
      sys .clientLoop
      zcrxTeardown zst areaSize
      sys .queueExit
      return .returned [] []

/-- the send loop of `run_client` -/
def runClientSend (cfg : Config) (sockfd : Int) : P Exit := do
  let made ← Engine.construct cfg.queueDepth cfg.sqpoll
  match made with
  | none => return .thrown sockfd
  | some sqpoll =>
    let filesRegistered ← Prog.maybe cfg.fixedFiles (Engine.registerFiles [sockfd]) false
    let bufferPool ← allocateBuffers cfg.inFlight cfg.bufSize
    let buffersRegistered ← Prog.maybe cfg.fixedBuffers (Engine.registerBuffers bufferPool) false
    sys .clientLoop
    sys (.close sockfd)
    freeBuffers bufferPool
    Engine.destruct { sqpollEnabled := sqpoll, buffersRegistered, filesRegistered }
    return .returned bufferPool []

/-- `close(sockfd)` after the receive loop has returned -/
def closeAfter (sockfd : Int) : Exit → P Exit
  | .thrown fd => pure (.thrown fd)
  | .returned pool unseen => do
    sys (.close sockfd)
    return .returned pool unseen

def reverseRecv (cfg : Config) (thread : Nat) (sockfd : Int) : P Exit :=
  if cfg.useZcrx then runClientReverseRecvZcrx cfg thread else runClientReverseRecv cfg sockfd

def runClient (cfg : Config) (thread : Nat) : P Exit := do
  let sockfd ← createClientSocket cfg.serverIp (Protocol.connectPort cfg thread) (cfg.protocol == .udp)
    (Protocol.localBindPort cfg thread)
  if sockfd < 0 then return .returned [] []
  else
    let sent : Bool ← Prog.maybe (cfg.protocol == .tcp) (sys (.sendHandshake sockfd cfg.reverse cfg.durationSec)) true
    if !sent then
      sys (.close sockfd)
      return .returned [] []
    else if cfg.reverse && cfg.protocol == .tcp then
      let exit ← reverseRecv cfg thread sockfd
      closeAfter sockfd exit
    else runClientSend cfg sockfd

def runServerZcrx (cfg : Config) (thread : Nat) : P Exit := do
  let listenFd ← createListenSocket (Protocol.listenPort cfg thread) false
  if listenFd < 0 then return .returned [] []
  else
    let ret : Int ← sys (.queueInitParams cfg.zcrxCqEntries false)
    if ret < 0 then
      sys (.close listenFd)
      return .returned [] []
    else
      let areaSize := UInt64.ofNat cfg.zcrxAreaSize
      let zst ← zcrxSetup cfg.zcrxIfname (queueId cfg thread) areaSize cfg.zcrxRqEntries
      match zst with
      | none =>
        sys .queueExit
        sys (.close listenFd)
        return .returned [] []
      | some zst =>
        let left : List Int × List Int ← sys .zcrxLoop
        Prog.forAll (fun fd => sys (.close fd)) left.1
        zcrxTeardown zst areaSize
        sys .queueExit
        sys (.close listenFd)
        return .returned [] left.2

/-- the end of `run_server` for one session -/
def closeConnection (conn : Int × List (Option Nat)) : P Unit := do
  sys (.close conn.1)
  freeBuffers conn.2

/-- `run_server` without `-Y` -/
def runServerPlain (cfg : Config) (thread : Nat) : P Exit := do
  let listenFd ← createListenSocket (Protocol.listenPort cfg thread) (cfg.protocol == .udp)
  if listenFd < 0 then return .returned [] []
  else
    let made ← Engine.construct cfg.queueDepth cfg.sqpoll
    match made with
    | none => return .thrown listenFd
    | some sqpoll =>
      let recvBufs ← Prog.maybe cfg.multishotRecv
        (Engine.setupMultishotRecv (UInt32.ofNat cfg.inFlight) cfg.bufSize 0) none
      let filesRegistered ← Prog.maybe (cfg.protocol == .udp && cfg.fixedFiles) (Engine.registerFiles [listenFd]) false
      let bufferPool ← Prog.maybe (cfg.protocol == .udp && recvBufs.isNone)
        (allocateBuffers cfg.inFlight cfg.bufSize) []
      let left : Connections × List Int ← sys .serverLoop
      sys (.close listenFd)
      Prog.forAll closeConnection left.1
      Engine.destruct { sqpollEnabled := sqpoll, filesRegistered, recvBufs }
      return .returned bufferPool left.2

def runServer (cfg : Config) (thread : Nat) : P Exit :=
  if cfg.useZcrx then runServerZcrx cfg thread else runServerPlain cfg thread

/-- the function that `Worker::start` runs in the thread -/
def runWorker (cfg : Config) (thread : Nat) : P Exit :=
  match cfg.mode with
  | .client => runClient cfg thread
  | .server => runServer cfg thread

/-! ## what they have released -/

section
variable {cfg : Config}

theorem owns_clientLoop (H : Multiset Resource) : Owns ledger (sys .clientLoop) H fun _ => H :=
  owns_skip H rfl fun _ => rfl

/-- of a client that returns nothing is left, of a server the descriptors it has not seen -/
def unseenLeft : Exit → Multiset Resource
  | .returned _ unseen => ofFds unseen
  | .thrown fd => {.descriptor fd}

theorem owns_runClientSend (sockfd : Int) :
    Owns ledger (runClientSend cfg sockfd) {.descriptor sockfd} unseenLeft := by
  refine ((owns_construct _ _).beside _).bind fun made => ?_
  cases made with
  | none => exact Owns.ret (zero_add _)
  | some sqpoll =>
    refine ((Owns.maybe (fun _ => owns_registerFiles [sockfd]) fun _ => rfl).beside _).bind fun files => ?_
    refine ((owns_allocateBuffers _ _).beside _).bind fun pool => ?_
    refine ((Owns.maybe (fun _ => owns_registerBuffers pool) fun _ => rfl).beside _).bind fun bufs => ?_
    refine (owns_clientLoop _).bind fun _ => ?_
    have horder : ofOk .registeredBuffers bufs + (ofPtrs pool + (ofOk .registeredFiles files +
        (ofNew (some sqpoll) + {.descriptor sockfd}))) =
        takes (.close sockfd) + (ofPtrs pool + Engine.held ⟨sqpoll, bufs, files, none⟩) := by
      show _ = {.descriptor sockfd} + (ofPtrs pool + (ofOk .registeredBuffers bufs +
        (ofOk .registeredFiles files + (0 + {.ring}))))
      rw [zero_add]
      show ofOk _ bufs + (ofPtrs pool + (ofOk _ files + ({.ring} + {.descriptor sockfd}))) = _
      ac_rfl
    rw [horder]
    refine (owns_put _ fun _ => rfl).bind fun _ => ?_
    refine ((owns_freeBuffers pool).frame _).bind fun _ => ?_
    rw [zero_add]
    refine Owns.bind (Owns.congr (owns_destruct _ 0) (add_zero _).symm fun _ => rfl) fun _ => ?_
    exact Owns.ret rfl

/-- the socket is closed by the caller -/
def socketLeft (sockfd : Int) : Exit → Multiset Resource
  | .returned _ unseen => {.descriptor sockfd} + ofFds unseen
  | .thrown fd => {.descriptor fd}

theorem owns_runClientReverseRecv (sockfd : Int) :
    Owns ledger (runClientReverseRecv cfg sockfd) {.descriptor sockfd} (socketLeft sockfd) := by
  refine ((owns_construct _ _).beside _).bind fun made => ?_
  cases made with
  | none => exact Owns.ret (zero_add _)
  | some sqpoll =>
    refine ((Owns.maybe (fun _ => owns_setupMultishotRecv _ _ 0) fun _ => rfl).beside _).bind fun recvBufs => ?_
    refine ((Owns.maybe (fun _ => owns_allocateBuffers _ _) fun _ => rfl).beside _).bind fun bufs => ?_
    refine (owns_clientLoop _).bind fun _ => ?_
    refine ((owns_freeBuffers bufs).frame _).bind fun _ => ?_
    have horder : (0 : Multiset Resource) + (ofRecvBufs recvBufs + (ofNew (some sqpoll) + {.descriptor sockfd})) =
        Engine.held ⟨sqpoll, false, false, recvBufs⟩ + {.descriptor sockfd} := by
      show _ = 0 + (0 + (ofRecvBufs recvBufs + {.ring})) + {.descriptor sockfd}
      rw [zero_add, zero_add, zero_add, add_assoc]
      rfl
    rw [horder]
    exact (owns_destruct _ _).bind fun _ => Owns.ret rfl

theorem owns_queueExit (H : Multiset Resource) : Owns ledger (sys .queueExit) ({.ring} + H) fun _ => H :=
  owns_put H fun _ => rfl

theorem owns_close (fd : Int) (H : Multiset Resource) : Owns ledger (sys (.close fd)) ({.descriptor fd} + H) fun _ => H :=
  owns_put H fun _ => rfl

theorem owns_queueInitParams (entries : Nat) (sqpoll : Bool) (H : Multiset Resource) :
    Owns ledger (sys (.queueInitParams entries sqpoll)) H fun ret => ofRet .ring ret + H :=
  (owns_get H rfl).congr rfl fun _ => add_comm _ _

theorem ofRet_neg {r : Resource} {ret : Int} (h : ret < 0) : ofRet r ret = 0 := if_pos h

theorem ofRet_nonneg {r : Resource} {ret : Int} (h : ¬ ret < 0) : ofRet r ret = {r} := if_neg h

theorem owns_runClientReverseRecvZcrx (thread : Nat) (sockfd : Int) :
    Owns ledger (runClientReverseRecvZcrx cfg thread) {.descriptor sockfd} (socketLeft sockfd) := by
  refine (owns_queueInitParams _ _ _).bind fun (ret : Int) => ?_
  split
  next h =>
    rw [ofRet_neg h, zero_add]
    exact Owns.ret rfl
  next h =>
    rw [ofRet_nonneg h]
    refine ((owns_zcrxSetup _ _ _ _).beside _).bind fun zst => ?_
    cases zst with
    | none =>
      show Owns ledger _ (0 + _) _
      rw [zero_add]
      exact (owns_queueExit _).bind fun _ => Owns.ret rfl
    | some zst =>
      refine (owns_clientLoop _).bind fun _ => ?_
      refine (owns_zcrxTeardown zst _ _).bind fun _ => ?_
      exact (owns_queueExit _).bind fun _ => Owns.ret rfl

theorem owns_closeAfter (sockfd : Int) (exit : Exit) :
    Owns ledger (closeAfter sockfd exit) (socketLeft sockfd exit) unseenLeft := by
  cases exit with
  | thrown fd => exact Owns.ret rfl
  | returned pool unseen => exact (owns_close sockfd _).bind fun _ => Owns.ret rfl

theorem owns_runClient (thread : Nat) : Owns ledger (runClient cfg thread) 0 unseenLeft := by
  refine (owns_createClientSocket _ _ _ _).bind fun sockfd => ?_
  split
  next h => exact Owns.ret (ofFd_neg h)
  next h =>
    rw [ofFd_nonneg h]
    refine (Owns.maybe (fun _ => owns_skip _ rfl fun _ => rfl) fun _ => rfl).bind fun (sent : Bool) => ?_
    split
    · exact Owns.bind (Owns.congr (owns_close sockfd 0) (add_zero _).symm fun _ => rfl) fun _ => Owns.ret rfl
    · split
      · have hrecv : Owns ledger (reverseRecv cfg thread sockfd) {.descriptor sockfd} (socketLeft sockfd) := by
          unfold reverseRecv
          split
          · exact owns_runClientReverseRecvZcrx thread sockfd
          · exact owns_runClientReverseRecv sockfd
        exact hrecv.bind fun exit => owns_closeAfter sockfd exit
      · exact owns_runClientSend sockfd

/-- the buffers of `buffer_pool_`, which only a UDP server fills and does not release -/
def poolLeft (cfg : Config) (pool : List (Option Nat)) : Multiset Resource :=
  if cfg.protocol == .udp then ofPtrs pool else 0

def serverLeft (cfg : Config) : Exit → Multiset Resource
  | .returned pool unseen => poolLeft cfg pool + ofFds unseen
  | .thrown fd => {.descriptor fd}

theorem poolLeft_nil : poolLeft cfg [] = 0 := ite_self _

theorem owns_pool (recvBufs : Option RecvBufs) :
    Owns ledger (Prog.maybe (cfg.protocol == .udp && recvBufs.isNone) (allocateBuffers cfg.inFlight cfg.bufSize) []) 0
      (poolLeft cfg) := by
  refine Owns.maybe (fun h => ?_) fun _ => poolLeft_nil.symm
  have hudp := (Bool.and_eq_true_iff.mp h).1
  exact (owns_allocateBuffers _ _).congr rfl fun pool => (if_pos hudp).symm

theorem owns_runServerZcrx (thread : Nat) : Owns ledger (runServerZcrx cfg thread) 0 unseenLeft := by
  refine (owns_createListenSocket _ _).bind fun listenFd => ?_
  split
  next h => exact Owns.ret (ofFd_neg h)
  next h =>
    rw [ofFd_nonneg h]
    have hclose : Owns ledger (sys (.close listenFd)) {.descriptor listenFd} fun _ => 0 :=
      Owns.congr (owns_close listenFd 0) (add_zero _).symm fun _ => rfl
    refine (owns_queueInitParams _ _ _).bind fun (ret : Int) => ?_
    split
    next hret =>
      rw [ofRet_neg hret, zero_add]
      exact hclose.bind fun _ => Owns.ret rfl
    next hret =>
      rw [ofRet_nonneg hret]
      refine ((owns_zcrxSetup _ _ _ _).beside _).bind fun zst => ?_
      cases zst with
      | none =>
        show Owns ledger _ (0 + _) _
        rw [zero_add]
        exact (owns_queueExit _).bind fun _ => hclose.bind fun _ => Owns.ret rfl
      | some zst =>
        refine (owns_get _ (c := .zcrxLoop) rfl).bind fun (left : List Int × List Int) => ?_
        have hall : Owns ledger (Prog.forAll (fun fd => sys (.close fd)) left.1) (ofFds left.1) fun _ => 0 :=
          Owns.forAll (fun fd => Owns.congr (owns_close fd 0) (add_zero _).symm fun _ => rfl) left.1
        have horder : ∀ A B C : Multiset Resource, A + (B + C) + (ofFds left.1 + ofFds left.2) =
            ofFds left.1 + (A + (B + (C + ofFds left.2))) := by
          intro A B C
          ac_rfl
        show Owns ledger _ (_ + (_ + _) + (ofFds left.1 + ofFds left.2)) _
        rw [horder]
        refine (hall.frame _).bind fun _ => ?_
        rw [zero_add]
        refine (owns_zcrxTeardown zst _ _).bind fun _ => ?_
        refine (owns_queueExit _).bind fun _ => ?_
        exact (owns_close listenFd _).bind fun _ => Owns.ret rfl

theorem owns_closeConnection (conn : Int × List (Option Nat)) :
    Owns ledger (closeConnection conn) (ofConnection conn) fun _ => 0 :=
  (owns_close conn.1 _).bind fun _ => owns_freeBuffers conn.2

theorem owns_runServerPlain (thread : Nat) : Owns ledger (runServerPlain cfg thread) 0 (serverLeft cfg) := by
  refine (owns_createListenSocket _ _).bind fun listenFd => ?_
  split
  next h =>
    refine Owns.ret ((ofFd_neg h).trans ?_)
    show 0 = poolLeft cfg [] + 0
    rw [poolLeft_nil, zero_add]
  next h =>
    rw [ofFd_nonneg h]
    refine ((owns_construct _ _).beside _).bind fun made => ?_
    cases made with
    | none => exact Owns.ret (zero_add _)
    | some sqpoll =>
      refine ((Owns.maybe (fun _ => owns_setupMultishotRecv _ _ 0) fun _ => rfl).beside _).bind fun recvBufs => ?_
      refine ((Owns.maybe (fun _ => owns_registerFiles [listenFd]) fun _ => rfl).beside _).bind fun files => ?_
      refine ((owns_pool recvBufs).beside _).bind fun pool => ?_
      refine (owns_get _ (c := .serverLoop) rfl).bind fun (left : Connections × List Int) => ?_
      have horder : poolLeft cfg pool + (ofOk .registeredFiles files + (ofRecvBufs recvBufs +
          (ofNew (some sqpoll) + {.descriptor listenFd}))) + (ofConnections left.1 + ofFds left.2) =
          {.descriptor listenFd} + (ofConnections left.1 + (Engine.held ⟨sqpoll, false, files, recvBufs⟩ +
            (poolLeft cfg pool + ofFds left.2))) := by
        show _ = {.descriptor listenFd} + (ofConnections left.1 + (0 + (ofOk .registeredFiles files +
          (ofRecvBufs recvBufs + {.ring})) + (poolLeft cfg pool + ofFds left.2)))
        rw [zero_add]
        show poolLeft cfg pool + (ofOk _ files + (ofRecvBufs recvBufs + ({.ring} + {.descriptor listenFd}))) +
          (ofConnections left.1 + ofFds left.2) = _
        ac_rfl
      show Owns ledger _ (poolLeft cfg pool + _ + (ofConnections left.1 + ofFds left.2)) _
      rw [horder]
      refine (owns_close listenFd _).bind fun _ => ?_
      refine ((Owns.forAll owns_closeConnection left.1).frame _).bind fun _ => ?_
      rw [zero_add]
      exact (owns_destruct _ _).bind fun _ => Owns.ret rfl

end

/-! ## what the loops leave behind -/

/-- the sessions of the table with their buffers, and the accepts that have not been processed -/
def serverLeaves (place : Ptr → Nat) (s : Server.St) : Connections × List Int :=
  (s.sessions.entries.map fun e => (e.1, e.2.buffers.map fun p => some (place p)), Server.pendFds s.ring)

def zcrxLeaves (p : Zcrx.Packed.St) : List Int × List Int := (p.conns.keys, Zcrx.Packed.pendFds p.ring)

/-- each descriptor that is open, once, and no other -/
def GivesOpen (isOpen : Int → Bool) (m : Multiset Resource) : Prop :=
  ∀ fd, m.count (.descriptor fd) = if isOpen fd then 1 else 0

theorem count_ofFds (fds : List Int) (fd : Int) : (ofFds fds).count (.descriptor fd) = fds.count fd := by
  induction fds with
  | nil => rfl
  | cons g fds ih =>
    show ({.descriptor g} + ofFds fds : Multiset Resource).count _ = _
    rw [Multiset.count_add, ih, List.count_cons, Multiset.count_singleton, Nat.add_comm]
    by_cases h : g = fd
    · simp [h]
    · simp [h, Ne.symm h]

theorem count_ofPtrs (bufs : List (Option Nat)) (fd : Int) : (ofPtrs bufs).count (.descriptor fd) = 0 := by
  induction bufs with
  | nil => rfl
  | cons buf bufs ih =>
    show (ofPtr buf + ofPtrs bufs).count _ = 0
    rw [Multiset.count_add, ih]
    cases buf with
    | none => rfl
    | some ptr =>
      show ({.memory ptr} : Multiset Resource).count (.descriptor fd) + 0 = 0
      rw [Multiset.count_singleton, if_neg Resource.noConfusion]

theorem count_ofConnections (conns : Connections) (fd : Int) :
    (ofConnections conns).count (.descriptor fd) = (conns.map Prod.fst).count fd := by
  induction conns with
  | nil => rfl
  | cons conn conns ih =>
    show (ofConnection conn + ofConnections conns).count _ = _
    unfold ofConnection
    rw [Multiset.count_add, Multiset.count_add, ih, count_ofPtrs, Nat.add_zero, ← count_ofFds, ← count_ofFds]
    exact (Multiset.count_add _ _ _).symm

/-- the descriptors that are pending or in the table -/
theorem givesOpen_of_ledger {gen : Int → Nat} {isOpen : Int → Bool} {pend live : List Int} {taken closed : List Conn}
    (h : Ledger.Sound Conn.mk gen isOpen pend live taken closed) {m : Multiset Resource}
    (hm : ∀ fd, m.count (.descriptor fd) = live.count fd + pend.count fd) : GivesOpen isOpen m := by
  intro fd
  rw [hm, Nat.add_comm, ← List.count_append]
  by_cases ho : isOpen fd = true
  · rw [if_pos ho]
    exact List.count_eq_one_of_mem h.nodup (List.mem_append.mpr ((h.isOpen fd).mp ho))
  · rw [if_neg ho]
    exact List.count_eq_zero_of_not_mem fun hmem => ho ((h.isOpen fd).mpr (List.mem_append.mp hmem))

theorem serverLeaves_open {L : Server.Setup} (htcp : L.config.protocol = .tcp) {cap : Nat} {s : Server.St}
    (h : Trans.Reach (Server.step L) (Server.start L cap) s) (hpc : s.pc ≠ .done) (place : Ptr → Nat) :
    GivesOpen s.isOpen (gives .serverLoop (serverLeaves place s)) := by
  refine givesOpen_of_ledger ((Server.reach_closing htcp h).2.ledger hpc) fun fd => ?_
  show (ofConnections (serverLeaves place s).1 + ofFds (Server.pendFds s.ring)).count _ = _
  rw [Multiset.count_add, count_ofConnections, count_ofFds]
  unfold serverLeaves
  rw [List.map_map]
  rfl

theorem zcrxLeaves_open {listenFd : Int} {cap : Nat} {rq : Zcrx.RefillQueue} {p : Zcrx.Packed.St}
    (h : Trans.Reach (Zcrx.Packed.step listenFd) (Zcrx.Packed.start cap rq) p) (hpc : p.pc ≠ .done) :
    GivesOpen p.isOpen (gives .zcrxLoop (zcrxLeaves p)) := by
  refine givesOpen_of_ledger ((Zcrx.Packed.reach_inv h).ledger hpc) fun fd => ?_
  show (ofFds p.conns.keys + ofFds (Zcrx.Packed.pendFds p.ring)).count _ = _
  rw [Multiset.count_add, count_ofFds, count_ofFds]

/-- what is left when the thread of a worker has ended -/
def leftover (cfg : Config) (exit : Exit) : Multiset Resource :=
  if cfg.mode == .server && !cfg.useZcrx then serverLeft cfg exit else unseenLeft exit

/-- **A worker releases what it acquires, once.**  For every configuration, whatever each system call returns and whatever
its loop leaves behind: at no point of a run has the thread released a descriptor, a ring, a registration, a buffer or a
mapping more often than acquired, and when it returns it has released all of them, each with the arguments it was acquired
with.  Three exceptions: a connection that the kernel has accepted, but whose completion the loop has not processed when
it ends, is never closed; a UDP server without multishot receives never releases its receive buffers; and if the kernel
grants no ring at all the exception leaves the thread, and ends the program, with the socket open.  What the loop of a
server leaves behind is, in every state in which it can end, each accepted descriptor that is open. -/
theorem worker_releases (cfg : Config) (thread : Nat) (tr : List ((c : Sys) × c.Result)) (exit : Exit)
    (h : Runs (runWorker cfg thread) tr exit) :
    (∀ pre, pre <+: tr → released ledger pre ≤ acquired ledger pre) ∧
    acquired ledger tr = leftover cfg exit + released ledger tr ∧
    (∀ (L : Server.Setup) cap s place, L.config.protocol = .tcp → Trans.Reach (Server.step L) (Server.start L cap) s →
      s.pc ≠ .done → GivesOpen s.isOpen (gives .serverLoop (serverLeaves place s))) ∧
    ∀ listenFd cap rq p, Trans.Reach (Zcrx.Packed.step listenFd) (Zcrx.Packed.start cap rq) p → p.pc ≠ .done →
      GivesOpen p.isOpen (gives .zcrxLoop (zcrxLeaves p)) := by
  have howns : Owns ledger (runWorker cfg thread) 0 (leftover cfg) := by
    unfold runWorker leftover
    cases cfg.mode with
    | client => exact owns_runClient thread
    | server =>
      unfold runServer
      cases cfg.useZcrx with
      | true => exact owns_runServerZcrx thread
      | false => exact owns_runServerPlain thread
  obtain ⟨hpre, hall⟩ := howns.ledger h
  refine ⟨hpre, hall, fun L cap s place htcp hs hpc => serverLeaves_open htcp hs hpc place, ?_⟩
  exact fun listenFd cap rq p hp hpc => zcrxLeaves_open hp hpc

def fallbackConfig : Config := { mode := .server }

/-- a TCP server to which the kernel grants a plain ring but no buffer ring; connection 5 is in the table when the loop
ends, and connection 7 in a completion that has not been processed -/
def fallbackTrace : List ((c : Sys) × c.Result) :=
  [⟨.socket false, (3 : Int)⟩, ⟨.bind 3 (Protocol.listenPort fallbackConfig 0), (0 : Int)⟩, ⟨.listen 3, (0 : Int)⟩,
   ⟨.queueInitParams fallbackConfig.queueDepth false, (-22 : Int)⟩, ⟨.queueInit fallbackConfig.queueDepth, (0 : Int)⟩,
   ⟨.setupBufRing 32 0, false⟩, ⟨.serverLoop, (([((5 : Int), [some 4096])], [7]) : Connections × List Int)⟩,
   ⟨.close 3, ()⟩, ⟨.close 5, ()⟩, ⟨.free 4096, ()⟩, ⟨.queueExit, ()⟩]

theorem worker_releases_fallback :
    (∀ pre, pre <+: fallbackTrace → released ledger pre ≤ acquired ledger pre) ∧
    leftover fallbackConfig (.returned [] [7]) = {.descriptor 7} ∧
    acquired ledger fallbackTrace = leftover fallbackConfig (.returned [] [7]) + released ledger fallbackTrace := by
  obtain ⟨hpre, hall, -⟩ := worker_releases fallbackConfig 0 fallbackTrace (.returned [] [7])
    (.call (.call (.call (.call (.call (.call (.call (.call (.call (.call (.call (.ret _))))))))))))
  exact ⟨hpre, rfl, hall⟩

end Resources
end UringPerf
