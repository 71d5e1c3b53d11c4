import UringPerf.Protocol.Agreement

/-!
# The ports of the zero-copy workers

With `-Y` every worker has a port of its own, so that its flow can be steered to its own queue of the network card:
a forward client connects to the port of the server's worker, a reverse client binds its own.  The three ports are
computed in 16 bits from the configured one.

* `localBindPort`, `bindsLocally`   the port of a reverse client, and whether its socket is bound to it;
* `zcrxPort`                        the port of a worker, in each of the three roles;
* `PortScheme`                      no port is zero and no two workers share one;
* `port_scheme_iff`                 this holds exactly if the ports do not pass the end of the range.
-/

namespace UringPerf
namespace Protocol

/-- `local_bind_port` of `run_client` -/
def localBindPort (config : Config) (thread : Nat) : UInt16 :=
  if config.useZcrx && config.reverse then UInt16.ofNat config.port + UInt16.ofNat thread else 0

/-- `create_client_socket` binds the socket unless the local port is 0 -/
def bindsLocally (localPort : UInt16) : Bool := localPort != 0

/-- the port by which the flow of a worker is steered -/
def zcrxPort (config : Config) (thread : Nat) : UInt16 :=
  match config.mode with
  | .server => listenPort config thread
  | .client => if config.reverse then localBindPort config thread else connectPort config thread

/-- every worker has a port of its own, and a reverse client binds it -/
structure PortScheme (config : Config) : Prop where
  nonzero : ∀ i < config.threads, zcrxPort config i ≠ 0
  binds : config.mode = .client → config.reverse = true →
    ∀ i < config.threads, bindsLocally (localBindPort config i) = true
  apart : ∀ i < config.threads, ∀ j < config.threads, i ≠ j → zcrxPort config i ≠ zcrxPort config j

theorem zcrxPort_eq {config : Config} (hz : config.useZcrx = true) (i : Nat) :
    zcrxPort config i = UInt16.ofNat config.port + UInt16.ofNat i := by
  unfold zcrxPort listenPort localBindPort connectPort
  rw [hz]
  cases config.mode with
  | server => rfl
  | client => cases config.reverse <;> rfl

theorem zcrxPort_toNat {config : Config} (hz : config.useZcrx = true) (i : Nat) :
    (zcrxPort config i).toNat = (config.port + i) % 2^16 := by
  rw [zcrxPort_eq hz, UInt16.toNat_add, UInt16.toNat_ofNat', UInt16.toNat_ofNat', ← Nat.add_mod]

theorem zcrxPort_eq_zero {config : Config} (hz : config.useZcrx = true) (i : Nat) :
    zcrxPort config i = 0 ↔ (config.port + i) % 2^16 = 0 := by
  rw [← zcrxPort_toNat hz]
  exact UInt16.toNat_inj.symm

/-- **The port scheme.**  For every accepted command line with `-Y`: a forward client's worker always connects to the
port on which the server's worker with its number listens; and all workers have distinct non-zero ports exactly if
the base port is not 0 and the last port is at most 65535. -/
theorem port_scheme_iff (opts : List Opt) (cfg : Config) (h : parseArgs opts = .ok cfg) (hz : cfg.useZcrx = true) :
    (∀ serverOpts server, parseArgs serverOpts = .ok server → server.mode = .server → server.useZcrx = true →
      server.port = cfg.port → cfg.mode = .client → cfg.reverse = false →
        ∀ i, connectPort cfg i = listenPort server i) ∧
    (PortScheme cfg ↔ 0 < cfg.port ∧ cfg.port + cfg.threads ≤ 65536) := by
  obtain ⟨hport, hthreads⟩ := parseArgs_ranged h
  constructor
  · intro _ server _ _ hsz hp _ hr i
    unfold connectPort listenPort
    rw [hz, hr, hsz, hp]
    rfl
  constructor
  · intro hs
    have h0 := hs.nonzero 0 (by omega)
    rw [Ne, zcrxPort_eq_zero hz] at h0
    refine ⟨by omega, ?_⟩
    by_contra hlt
    -- the worker whose port wraps to 0
    have hw := hs.nonzero (65536 - cfg.port) (by omega)
    rw [Ne, zcrxPort_eq_zero hz] at hw
    omega
  · rintro ⟨hpos, hle⟩
    have hnz : ∀ i < cfg.threads, zcrxPort cfg i ≠ 0 := by
      intro i hi
      rw [Ne, zcrxPort_eq_zero hz]
      omega
    refine ⟨hnz, ?_, ?_⟩
    · intro hm hr i hi
      have e : zcrxPort cfg i = localBindPort cfg i := by
        unfold zcrxPort
        rw [hm, hr]
        rfl
      unfold bindsLocally
      rw [bne_iff_ne, ← e]
      exact hnz i hi
    · intro i hi j hj hij e
      have e' := congrArg UInt16.toNat e
      rw [zcrxPort_toNat hz, zcrxPort_toNat hz] at e'
      omega

/-- the default port leaves room for four workers -/
theorem port_scheme_default : ∃ cfg, parseArgs [.server, .zcrx, .zcrxIf "eth0", .parallel "4"] = .ok cfg ∧
    cfg.useZcrx = true ∧ PortScheme cfg := by
  refine ⟨{ mode := .server, useZcrx := true, zcrxIfname := "eth0", threads := 4 }, by decide +kernel, rfl, ?_⟩
  exact (port_scheme_iff [.server, .zcrx, .zcrxIf "eth0", .parallel "4"] _ (by decide +kernel) rfl).2.mpr (by decide)

/-- **The last port wraps to 0.**  With `-p 65535 -P 2` the second server worker listens on port 0, and the second
reverse client is not bound to a port at all. -/
theorem port_scheme_wraps :
    (∃ cfg, parseArgs [.server, .zcrx, .zcrxIf "eth0", .port "65535", .parallel "2"] = .ok cfg ∧
      cfg.threads = 2 ∧ listenPort cfg 1 = 0) ∧
    ∃ cfg, parseArgs [.client "10.0.0.1", .reverse, .zcrx, .zcrxIf "eth0", .port "65535", .parallel "2"] = .ok cfg ∧
      cfg.threads = 2 ∧ localBindPort cfg 1 = 0 ∧ bindsLocally (localBindPort cfg 1) = false := by
  constructor
  · exact ⟨{ mode := .server, useZcrx := true, zcrxIfname := "eth0", port := 65535, threads := 2 },
      by decide +kernel, rfl, by decide⟩
  · exact ⟨{ mode := .client, serverIp := "10.0.0.1", reverse := true, useZcrx := true, zcrxIfname := "eth0"
             port := 65535, threads := 2 }, by decide +kernel, rfl, by decide, by decide⟩

end Protocol
end UringPerf
