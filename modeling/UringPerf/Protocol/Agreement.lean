import UringPerf.Net.Handshake
import UringPerf.Recv.Accepted
import UringPerf.Recv.ClientStream

/-!
# Do client and server agree on a connection?

A client worker connects to a server worker, sends the handshake and takes one of the two directions.  The server worker
is in any state it can reach, with any other connections, when it processes the accept; what it makes of the same bytes
depends on which of its two loops runs.

* `connectPort`, `listenPort`  the ports of the workers;
* `Pair`                       two command lines whose workers meet on a port;
* `Link`                       the handshake and the payload of one connection;
* `PlainRun`, `ZcrxRun`        the accept of the connection in a reachable state of the server, and a run from there;
* `Agreement`                  the server sends on the connection exactly if the client receives, and the receiving side
                               counts the payload and nothing else, without losing any of it;
* `hasRoom_of_depth`           a queue of more than 32 entries has room;
* `agreement_iff`              the sides agree exactly if the server does not run the zero-copy loop, had room for the
                               first operation of the connection, and nothing ends or starves it before the last byte.
-/

namespace UringPerf
namespace Protocol
open Uring Net Bytes Recv

/-! ## the two workers -/

/-- `connect_port`: 16-bit arithmetic on the port and the number of the thread -/
def connectPort (config : Config) (thread : Nat) : UInt16 :=
  UInt16.ofNat config.port + if config.useZcrx && !config.reverse then UInt16.ofNat thread else 0

/-- the port of `run_server`, or of `run_server_zcrx` -/
def listenPort (config : Config) (thread : Nat) : UInt16 :=
  if config.useZcrx then UInt16.ofNat config.port + UInt16.ofNat thread else UInt16.ofNat config.port

/-- two accepted TCP command lines and a worker of each that meet on a port -/
structure Pair where
  clientOpts : List Opt
  serverOpts : List Opt
  client : Config
  server : Config
  clientThread : Nat
  serverThread : Nat
  client_ok : parseArgs clientOpts = .ok client
  server_ok : parseArgs serverOpts = .ok server
  client_mode : client.mode = .client
  server_mode : server.mode = .server
  client_tcp : client.protocol = .tcp
  server_tcp : server.protocol = .tcp
  client_lt : clientThread < client.threads
  server_lt : serverThread < server.threads
  meet : connectPort client clientThread = listenPort server serverThread

/-! ## one connection -/

/-- a connection of the pair: the hosts, the scripts of the handshake and the payload -/
structure Link (P : Pair) where
  clientHost : Endian
  serverHost : Endian
  sendCalls : List Call
  recvCalls : List Call
  send_smooth : Smooth sendCalls
  recv_smooth : Smooth recvCalls
  send_enough : 5 ≤ amount sendCalls
  recv_enough : 5 ≤ amount recvCalls
  payload : List UInt8

namespace Link
variable {P : Pair} (X : Link P)

/-- what the client writes: the handshake, and the payload unless it is to receive -/
def upstream : List UInt8 :=
  ((sendHandshake X.clientHost P.client.reverse (UInt32.ofNat P.client.durationSec) X.sendCalls []).elim
    [] Prod.snd) ++ if P.client.reverse then [] else X.payload

def handshakeRead : Option (Bool × (Bool × UInt32) × List UInt8) :=
  recvHandshake X.serverHost X.recvCalls X.upstream false (UInt32.ofNat P.server.durationSec)

def learned : Option (Bool × Nat) :=
  match X.handshakeRead with
  | some (true, (reverse, d), _) => some (reverse, d.toNat)
  | _ => none

def leftover : List UInt8 :=
  match X.handshakeRead with
  | some (_, _, rest) => rest
  | none => X.upstream

end Link

/-- `run_server` processes the accept of the connection in the reachable state `before`; `acts` is what happens after -/
structure PlainRun {P : Pair} (X : Link P) where
  setup : Server.Setup
  config : setup.config = P.server
  before : Server.St
  reached : Trans.Reach (Server.step setup) (Server.start setup (sqEntries P.server.queueDepth)) before
  fd : Int
  accepting : Accepting before fd
  now : Nat
  accepted : Server.St
  accepts : Server.step setup before (.cqe now X.learned) = some accepted
  acts : List Server.Act

/-- the same for `run_server_zcrx`, which reads no handshake -/
structure ZcrxRun where
  listenFd : Int
  entries : Nat
  refill : Zcrx.RefillQueue
  before : Zcrx.St
  reached : Trans.Reach (Zcrx.step listenFd) (Zcrx.start entries refill) before
  fd : Int
  fd_nonneg : 0 ≤ fd
  accepting : ∃ c, before.ring.cq.head? = some c ∧ c.op = .accept ∧ c.res = fd
  accepted : Zcrx.St
  accepts : Zcrx.step listenFd before .cqe = some accepted
  acts : List Zcrx.Act

/-- a run of `run_client_reverse_recv` -/
structure PlainClient (P : Pair) where
  setup : Client.Setup
  config : setup.config = P.client
  acts : List Client.Act

/-- a run of `run_client_reverse_recv_zcrx` -/
structure ZcrxClient where
  entries : Nat
  entries_pos : 1 ≤ entries
  refill : Zcrx.RefillQueue
  conn : Conn
  acts : List Zcrx.Act

inductive ServerSide {P : Pair} (X : Link P) where
  | plain (h : P.server.useZcrx = false) (r : PlainRun X)
  | zcrx (h : P.server.useZcrx = true) (r : ZcrxRun)

inductive ClientSide (P : Pair) where
  | sends (h : P.client.reverse = false)
  | plain (h : P.client.reverse = true) (hz : P.client.useZcrx = false) (r : PlainClient P)
  | zcrx (h : P.client.reverse = true) (hz : P.client.useZcrx = true) (r : ZcrxClient)

structure Exchange (P : Pair) extends Link P where
  server : ServerSide toLink
  client : ClientSide P

/-! ## what each side does with the connection -/

namespace PlainRun
variable {P : Pair} {X : Link P} (r : PlainRun X)

def conn : Conn := ⟨r.fd, r.before.gen r.fd⟩

/-- the connection as a receiver of what the handshake has left in the stream -/
def fed : Fed Server.St := ⟨r.accepted, X.leftover.length, 0⟩

/-- an operation of the direction that the client has taken is outstanding -/
def clashes (s : Server.St) : Bool := if P.client.reverse then receivesOn r.conn s else sendsOn r.conn s

/-- there is room for the first operation when the accept is processed -/
def HasRoom : Prop := r.before.ring.sq.length < r.before.ring.cap

/-- no step ends the connection, or takes its last receive away, before the last byte is counted -/
def NoEarlyEnd : Prop :=
  Trans.Along (serverTap r.setup r.conn).feed (fun w a _ => (serverTap r.setup r.conn).NoLoss X.payload.length
    (streamCounts r.setup.useMultishot) (fun s a => serverEarly r.setup r.conn s a = true) w a) r.fed r.acts

end PlainRun

namespace ZcrxRun
variable (r : ZcrxRun)

def conn : Conn := ⟨r.fd, r.before.gen r.fd⟩

/-- an entry that sends on the connection is outstanding -/
def sendsOn (s : Zcrx.St) : Bool :=
  s.ring.outstanding.any fun o => o.opcode.sends && decide (o.conn = some r.conn)

def receivesOn (s : Zcrx.St) : Bool :=
  s.ring.outstanding.any fun o => o.opcode == .recvZc && decide (o.conn = some r.conn)

def clashes (reverse : Bool) (s : Zcrx.St) : Bool := if reverse then r.receivesOn s else r.sendsOn s

end ZcrxRun

namespace ServerSide
variable {P : Pair} {X : Link P}

/-- an operation that sends on the connection is outstanding when the accept has been processed -/
def sends : ServerSide X → Bool
  | .plain _ r => sendsOn r.conn r.accepted
  | .zcrx _ r => r.sendsOn r.accepted

/-- no operation of the client's own direction is outstanding, then and from then on -/
def KeepsRole : ServerSide X → Prop
  | .plain _ r => r.clashes r.accepted = false ∧
      Trans.Along (Server.step r.setup) (fun _ _ t => r.clashes t = false) r.accepted r.acts
  | .zcrx _ r => r.clashes P.client.reverse r.accepted = false ∧
      Trans.Along (Zcrx.step r.listenFd) (fun _ _ t => r.clashes P.client.reverse t = false) r.accepted r.acts

/-- the payload is counted, and nothing else; the zero-copy loop has the whole stream before it -/
def Counts : ServerSide X → Prop
  | .plain _ r => (serverTap r.setup r.conn).ServedAlong X.payload.length r.fed r.acts
  | .zcrx _ r => (zcServerTap r.conn r.listenFd).ServedAlong X.payload.length
      ⟨r.accepted, X.upstream.length, 0⟩ r.acts

/-- a connection that has something to do finds room for it -/
def Room : ServerSide X → Prop
  | .plain _ r => P.client.reverse = true ∨ (r.before.stop = false ∧ 0 < X.payload.length) → r.HasRoom
  | .zcrx _ _ => True

def NoEarlyEnd : ServerSide X → Prop
  | .plain _ r => r.NoEarlyEnd
  | .zcrx _ _ => True

end ServerSide

namespace PlainClient
variable {P : Pair} (r : PlainClient P)

/-- the client when `arriving` bytes come -/
def fed (arriving : Nat) : Fed Client.St := ⟨Client.recvStart r.setup (sqEntries P.client.queueDepth), arriving, 0⟩

def NoEarlyEnd (n : Nat) : Prop :=
  Trans.Along (clientSolo r.setup).tap.feed (fun w a _ => (clientSolo r.setup).tap.NoLoss n
    (clientSolo r.setup).counts (fun s a => (clientSolo r.setup).early s a = true) w a) (r.fed n) r.acts

end PlainClient

namespace ZcrxClient
variable (r : ZcrxClient)

def fed (arriving : Nat) : Fed Zcrx.ClientSt := ⟨Zcrx.clientStart r.entries r.refill r.conn, arriving, 0⟩

def NoEarlyEnd (n : Nat) : Prop :=
  Trans.Along (zcSolo r.conn).tap.feed (fun w a _ => (zcSolo r.conn).tap.NoLoss n (zcSolo r.conn).counts
    (fun s a => (zcSolo r.conn).early s a = true) w a) (r.fed n) r.acts

end ZcrxClient

namespace ClientSide
variable {P : Pair}

/-- `n` bytes are counted, and nothing else, when `arriving` bytes come -/
def Counts (n arriving : Nat) : ClientSide P → Prop
  | .sends _ => True
  | .plain _ _ r => (clientSolo r.setup).tap.ServedAlong n (r.fed arriving) r.acts
  | .zcrx _ _ r => (zcSolo r.conn).tap.ServedAlong n (r.fed arriving) r.acts

def NoEarlyEnd (n : Nat) : ClientSide P → Prop
  | .sends _ => True
  | .plain _ _ r => r.NoEarlyEnd n
  | .zcrx _ _ r => r.NoEarlyEnd n

end ClientSide

namespace Exchange
variable {P : Pair} (X : Exchange P)

/-- what the server sends -/
def departing : List UInt8 := if X.server.sends then X.payload else []

/-- opposite directions, and the receiving side counts the payload and nothing else -/
structure Agreement : Prop where
  role : X.server.sends = P.client.reverse
  keeps : X.server.KeepsRole
  server : P.client.reverse = false → X.server.Counts
  client : X.client.Counts X.payload.length X.departing.length

/-- nothing ends the receiving side before the last byte -/
def NoEarlyEnd : Prop :=
  (P.client.reverse = false → X.server.NoEarlyEnd) ∧ X.client.NoEarlyEnd X.payload.length

end Exchange

/-! ## the handshake between the two -/

section
variable {P : Pair} (X : Link P)

theorem upstream_eq : X.upstream = wire P.client.reverse (UInt32.ofNat P.client.durationSec) ++
    if P.client.reverse then [] else X.payload := by
  unfold Link.upstream
  rw [sendHandshake_smooth _ _ _ X.send_smooth X.send_enough]
  rfl

theorem handshakeRead_eq : X.handshakeRead =
    some (true, (P.client.reverse, UInt32.ofNat P.client.durationSec),
      if P.client.reverse then [] else X.payload) := by
  unfold Link.handshakeRead
  rw [upstream_eq]
  exact recvHandshake_smooth X.recv_smooth X.recv_enough _ _ _

theorem learned_eq : X.learned =
    some (P.client.reverse, (UInt32.ofNat P.client.durationSec).toNat) := by
  unfold Link.learned
  rw [handshakeRead_eq]

theorem leftover_eq : X.leftover = if P.client.reverse then [] else X.payload := by
  unfold Link.leftover
  rw [handshakeRead_eq]

end

/-! ## the server in its normal loop -/

section
variable {P : Pair} {X : Link P} (r : PlainRun X)

theorem setup_tcp : r.setup.config.protocol = .tcp := by
  rw [r.config]
  exact P.server_tcp

theorem setup_inFlight : r.setup.config.inFlight = 32 := by
  rw [r.config]
  exact (parseArgs_ok P.server_ok).1

/-- the step opens a session in the direction that the client asked for -/
theorem plain_accepts : Accepts r.setup r.now X.learned r.before r.accepted r.fd P.client.reverse := by
  have hread : Server.handshake r.setup X.learned = X.learned := if_pos (setup_tcp r)
  exact accepts_of_step (Server.reach_inv (setup_tcp r) r.reached) r.accepting (hread.trans (learned_eq X)) r.accepts

theorem plain_sends : sendsOn r.conn r.accepted = true ↔ P.client.reverse = true ∧ r.HasRoom :=
  accepted_sends (plain_accepts r) (by rw [setup_inFlight]; decide)

theorem role_clashes {s : Server.St} (h : Role r.setup r.conn (if P.client.reverse then .send else .recv) s) :
    r.clashes s = false := by
  unfold PlainRun.clashes
  cases hr : P.client.reverse with
  | true =>
    rw [hr] at h
    exact h.deaf
  | false =>
    rw [hr] at h
    exact h.silent

theorem plain_keeps : r.clashes r.accepted = false ∧
    Trans.Along (Server.step r.setup) (fun _ _ t => r.clashes t = false) r.accepted r.acts := by
  have hrole : Role r.setup r.conn _ r.accepted := (plain_accepts r).role
  refine ⟨role_clashes r hrole, ?_⟩
  exact (Trans.along_inv role_step r.acts r.accepted hrole).imp (fun _ _ _ h => role_clashes r h) r.acts r.accepted

/-- the handshake is read, so that the payload is what arrives -/
theorem plain_counts (hr : P.client.reverse = false) :
    (serverTap r.setup r.conn).ServedAlong X.payload.length r.fed r.acts ↔
      (r.before.stop = false → 0 < X.payload.length → r.HasRoom) ∧ r.NoEarlyEnd := by
  obtain ⟨hJ, hpend, hrec⟩ := accepted_serving (plain_accepts r) (by rw [setup_inFlight]; decide) hr
  have hfed : r.fed = ⟨r.accepted, X.payload.length, 0⟩ := by
    unfold PlainRun.fed
    rw [leftover_eq, hr]
    rfl
  have hstop : (serverTap r.setup r.conn).stop r.accepted = r.before.stop := (plain_accepts r).stop
  unfold PlainRun.NoEarlyEnd
  rw [hfed]
  refine ((server_stream (setup_tcp r)).served_iff hJ hpend X.payload.length r.acts).trans (and_congr_left' ?_)
  rw [← hstop]
  exact imp_congr_right fun _ => imp_congr_right fun _ => hrec

/-- **A queue of more than 32 entries that the kernel does not poll has room at every accept.** -/
theorem hasRoom_of_depth (hoff : r.setup.sqpoll = false) (hdepth : 32 < P.server.queueDepth) : r.HasRoom := by
  have hN := setup_inFlight r
  have hcap : 2 * r.setup.config.inFlight ≤ sqEntries P.server.queueDepth := by
    rw [hN]
    exact sqEntries_of_lt _ 5 hdepth
  obtain ⟨hq, -⟩ := Server.queue_enough (setup_tcp r) hoff (by omega) hcap r.reached
  obtain ⟨n, c, cs, hc⟩ := Server.step_cqe r.accepts
  obtain ⟨-, hbudget⟩ := Server.budget_cqe (by omega) hq.inv hq.budget hc
  -- the accept itself is queued again, so that its entry was in the budget
  have hpos : 0 < (Server.queued r.setup r.now X.learned r.before c).length := by
    obtain ⟨c', cs', hcq, hop⟩ := (plain_accepts r).unseen
    rw [hc.cq] at hcq
    cases hcq
    rw [Server.queued_accept hop, List.length_append]
    exact Nat.succ_pos _
  unfold PlainRun.HasRoom
  rw [hq.cap]
  omega

end

/-! ## the client -/

theorem client_counts {P : Pair} (c : ClientSide P) (n : Nat) : c.Counts n n ↔ c.NoEarlyEnd n := by
  cases c with
  | sends h => exact Iff.rfl
  | plain h hz r =>
    have hN : r.setup.config.inFlight = 32 := by
      rw [r.config]
      exact (parseArgs_ok P.client_ok).1
    have hcap : 1 ≤ sqEntries P.client.queueDepth := Nat.one_le_two_pow
    obtain ⟨hJ, hpend, hrec⟩ := client_ready (K := r.setup) (by rw [hN]; decide) hcap
    refine ((client_law r.setup).spec.served_iff hJ hpend n r.acts).trans ?_
    exact and_iff_right fun _ _ => hrec
  | zcrx h hz r =>
    obtain ⟨hJ, hpend, hrec⟩ := zc_ready r.entries_pos r.refill r.conn
    refine ((zc_law r.conn).spec.served_iff hJ hpend n r.acts).trans ?_
    exact and_iff_right fun _ _ => hrec

/-- a client that sends counts nothing -/
theorem client_silent {P : Pair} (hr : P.client.reverse = false) (c : ClientSide P) (n arriving : Nat) :
    c.Counts n arriving ∧ c.NoEarlyEnd n := by
  cases c with
  | sends h => exact ⟨trivial, trivial⟩
  | plain h hz r => exact absurd (hr.symm.trans h) Bool.noConfusion
  | zcrx h hz r => exact absurd (hr.symm.trans h) Bool.noConfusion

/-! ## agreement -/

/-- no entry of the zero-copy server sends -/
theorem zcServer_silent (r : ZcrxRun) (s : Zcrx.St) : r.sendsOn s = false := by
  unfold ZcrxRun.sendsOn
  rw [List.any_eq_false]
  intro o _
  cases o <;> exact Bool.false_ne_true

section
variable {P : Pair} (X : Exchange P)

/-- the zero-copy server does not send, and five bytes too many are before its receive -/
theorem zcServer_never (h : P.server.useZcrx = true) : ¬ X.Agreement := by
  intro ha
  obtain ⟨L, server, client⟩ := X
  cases server with
  | plain h' r => exact absurd (h.symm.trans h') Bool.noConfusion
  | zcrx _ r =>
    have hr : P.client.reverse = false := ha.role.symm.trans (zcServer_silent r r.accepted)
    have hle := (ha.server hr).left_le
    rw [upstream_eq, hr, if_neg Bool.false_ne_true, List.length_append, length_wire] at hle
    omega

/-- the server in its normal loop, with a client that receives -/
theorem plain_reverse {h : P.server.useZcrx = false} {r : PlainRun X.toLink} (hX : X.server = .plain h r)
    (hr : P.client.reverse = true) : X.Agreement ↔ X.server.Room ∧ X.NoEarlyEnd := by
  have hsends : X.server.sends = true ↔ P.client.reverse = true ∧ r.HasRoom := by
    rw [hX]
    exact plain_sends r
  have hroom : X.server.Room ↔ r.HasRoom := by
    rw [hX]
    exact ⟨fun h => h (Or.inl hr), fun h _ => h⟩
  have hcounts : X.server.sends = true →
      (X.client.Counts X.payload.length X.departing.length ↔ X.client.NoEarlyEnd X.payload.length) := by
    intro hs
    unfold Exchange.departing
    rw [if_pos hs]
    exact client_counts X.client X.payload.length
  constructor
  · intro ha
    have hs := ha.role.trans hr
    exact ⟨hroom.mpr (hsends.mp hs).2, fun h => absurd (hr.symm.trans h) Bool.noConfusion,
      (hcounts hs).mp ha.client⟩
  · rintro ⟨hro, -, hend⟩
    have hs := hsends.mpr ⟨hr, hroom.mp hro⟩
    refine ⟨hs.trans hr.symm, ?_, fun h => absurd (hr.symm.trans h) Bool.noConfusion, (hcounts hs).mpr hend⟩
    rw [hX]
    exact plain_keeps r

/-- and with a client that sends -/
theorem plain_forward {h : P.server.useZcrx = false} {r : PlainRun X.toLink} (hX : X.server = .plain h r)
    (hr : P.client.reverse = false) : X.Agreement ↔ X.server.Room ∧ X.NoEarlyEnd := by
  have hsends : X.server.sends = P.client.reverse := by
    rw [hX, hr, Bool.eq_false_iff]
    exact fun hs => absurd (hr.symm.trans ((plain_sends r).mp hs).1) Bool.noConfusion
  have hcounts : X.server.Counts ↔ X.server.Room ∧ X.server.NoEarlyEnd := by
    rw [hX]
    refine (plain_counts r hr).trans (and_congr_left' ⟨fun h hdo => ?_, fun h hstop hpos => h (Or.inr ⟨hstop, hpos⟩)⟩)
    rcases hdo with hrev | ⟨hstop, hpos⟩
    · exact absurd (hr.symm.trans hrev) Bool.noConfusion
    · exact h hstop hpos
  obtain ⟨hclient, hend⟩ := client_silent hr X.client X.payload.length X.departing.length
  constructor
  · intro ha
    obtain ⟨hroom, hno⟩ := hcounts.mp (ha.server hr)
    exact ⟨hroom, fun _ => hno, hend⟩
  · rintro ⟨hroom, hno, -⟩
    refine ⟨hsends, ?_, fun _ => hcounts.mpr ⟨hroom, hno hr⟩, hclient⟩
    rw [hX]
    exact plain_keeps r

end

/-! ## a connection on descriptor 7 that carries three bytes -/

/-- a client that sends or receives, and a server with or without zero-copy receive, on the default port -/
def samplePair (zcrx reverse : Bool) : Pair where
  clientOpts := .client "10.0.0.1" :: if reverse then [.reverse] else []
  serverOpts := .server :: if zcrx then [.zcrx, .zcrxIf "eth0"] else []
  client := { serverIp := "10.0.0.1", reverse := reverse }
  server := { mode := .server, useZcrx := zcrx, zcrxIfname := if zcrx then "eth0" else "" }
  clientThread := 0
  serverThread := 0
  client_ok := by cases reverse <;> decide +kernel
  server_ok := by cases zcrx <;> decide +kernel
  client_mode := rfl
  server_mode := rfl
  client_tcp := rfl
  server_tcp := rfl
  client_lt := Nat.zero_lt_one
  server_lt := Nat.zero_lt_one
  meet := by cases zcrx <;> cases reverse <;> decide +kernel

def sampleLink (zcrx reverse : Bool) : Link (samplePair zcrx reverse) where
  clientHost := .little
  serverHost := .little
  sendCalls := [.ready 4]
  recvCalls := [.ready 1, .ready 2]
  send_smooth := by decide
  recv_smooth := by decide
  send_enough := by decide
  recv_enough := by decide
  payload := [1, 2, 3]

def sampleWorker : Server.Setup := Server.worker (samplePair false true).server

theorem sqEntries_default : sqEntries 256 = 256 := by decide +kernel

/-- the accept has been posted and the batch begins -/
def sampleBefore : Server.St :=
  (Trans.runFrom (Server.step sampleWorker) (Server.start sampleWorker 256)
    [.post 0 (.plain 7), .sweep 0, .reap]).get (by decide +kernel)

def sampleRun (reverse : Bool) : PlainRun (sampleLink false reverse) where
  setup := sampleWorker
  config := rfl
  before := sampleBefore
  reached := by
    show Trans.Reach _ (Server.start sampleWorker (sqEntries 256)) _
    rw [sqEntries_default]
    exact Trans.Reach.of_runFrom _ (Option.some_get _).symm
  fd := 7
  accepting := ⟨⟨.plain 7, acceptSqe 3 sampleWorker.acceptCtx⟩, by decide +kernel⟩
  now := 0
  accepted := (Server.step sampleWorker sampleBefore (.cqe 0 (sampleLink false reverse).learned)).get
    (by cases reverse <;> decide +kernel)
  accepts := (Option.some_get _).symm
  acts := if reverse then [.submit, .sweep 0, .reap]
    else [.submit, .post 0 ⟨2, true, false, some 0⟩, .post 0 ⟨1, true, false, some 1⟩, .sweep 0, .reap, .cqe 0 none,
      .cqe 0 none, .submit, .post 0 (.plain 0), .sweep 0, .reap, .cqe 0 none]

def sampleClient : PlainClient (samplePair false true) where
  setup := Client.worker (samplePair false true).client
  config := rfl
  acts := [.post 0 ⟨2, true, false, some 0⟩, .post 0 ⟨1, true, false, some 1⟩, .reap, .cqe, .cqe, .submit,
    .post 0 (.plain 0), .reap, .cqe]

def sampleForward : Exchange (samplePair false false) where
  toLink := sampleLink false false
  server := .plain rfl (sampleRun false)
  client := .sends rfl

def sampleReverse : Exchange (samplePair false true) where
  toLink := sampleLink false true
  server := .plain rfl (sampleRun true)
  client := .plain rfl rfl sampleClient

def zcQueue : Zcrx.RefillQueue := ⟨0, 0, 0, 8192, 0, fun _ => ⟨0, 0⟩⟩

def zcBefore : Zcrx.St :=
  (Trans.runFrom (Zcrx.step 3) (Zcrx.start 8192 zcQueue) [.post 0 (.plain 7), .wait]).get (by decide +kernel)

/-- the zero-copy server, to which the handshake and three bytes come -/
def zcSample : ZcrxRun where
  listenFd := 3
  entries := 8192
  refill := zcQueue
  before := zcBefore
  reached := Trans.Reach.of_runFrom _ (Option.some_get _).symm
  fd := 7
  fd_nonneg := by decide
  accepting := ⟨⟨.plain 7, .accept⟩, by decide +kernel⟩
  accepted := (Zcrx.step 3 zcBefore .cqe).get (by decide +kernel)
  accepts := (Option.some_get _).symm
  acts := [.advance, .wait, .post 0 ⟨8, true, false, some 0⟩, .cqe]

def zcForward : Exchange (samplePair true false) where
  toLink := sampleLink true false
  server := .zcrx rfl zcSample
  client := .sends rfl

def zcReverse : Exchange (samplePair true true) where
  toLink := sampleLink true true
  server := .zcrx rfl zcSample
  client := .plain rfl rfl ⟨Client.worker (samplePair true true).client, rfl, []⟩

end Protocol
end UringPerf
