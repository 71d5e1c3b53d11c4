import Mathlib

/-!
# The configuration and its command line

`Config` and `Config::parse_args` of `include/config.hpp`.  `getopt_long` has already split the
command line: `parseArgs` gets the list of recognised options with their arguments, in order.

* `atoi`          the decimal prefix of a string, narrowed to 32 bits;
* `applyOpt`      one case of the option switch;
* `parseArgs`     the loop, the UDP default of the buffer size and the cross-option checks;
* `parseArgs_inv` what every option keeps holds of an accepted configuration;
* `sqEntries`     the kernel rounds the queue depth up to a power of two.
-/

namespace UringPerf

inductive Mode where
  | server
  | client
deriving DecidableEq, Repr

inductive Protocol where
  | tcp
  | udp
deriving DecidableEq, Repr

structure Config where
  mode : Mode := .client
  protocol : Protocol := .tcp
  serverIp : String := "127.0.0.1"
  port : Nat := 5201
  durationSec : Nat := 10
  threads : Nat := 1
  bufSize : Nat := 128 * 1024
  queueDepth : Nat := 256
  inFlight : Nat := 32
  udpGsoSize : Nat := 1472
  zeroCopy : Bool := false
  sqpoll : Bool := false
  fixedBuffers : Bool := true
  fixedFiles : Bool := true
  multishotRecv : Bool := true
  multiProcess : Bool := false
  reverse : Bool := false
  useZcrx : Bool := false
  zcrxIfname : String := ""
  zcrxBaseQueue : Nat := 0
  zcrxAreaSize : Nat := 256 * 1024 * 1024
  zcrxRqEntries : Nat := 8192
  zcrxCqEntries : Nat := 8192
  intervalSec : Nat := 1
  cpuAffinity : List Int := []
deriving DecidableEq, Repr

/-- an option returned by `getopt_long`, with its argument -/
inductive Opt where
  | server
  | client (host : String)
  | port (arg : String)
  | udp
  | reverse
  | zerocopy
  | zcrx
  | zcrxIf (arg : String)
  | zcrxQueue (arg : String)
  | noMultishotRecv
  | sqpoll
  | parallel (arg : String)
  | multiProcess
  | len (arg : String)
  | queueDepth (arg : String)
  | noFixedBuf
  | affinity (arg : String)
  | time (arg : String)
  | interval (arg : String)
  | help
  | unknown
deriving DecidableEq, Repr

/-- how `parse_args` leaves the process instead of returning -/
inductive Exit where
  | usage (code : Nat)
  | error (code : Nat) (message : String)
deriving DecidableEq, Repr

def isBlank (c : Char) : Bool := c == ' ' || (9 ≤ c.toNat && c.toNat ≤ 13)

def decimal (cs : List Char) : Int :=
  (cs.takeWhile Char.isDigit).foldl (fun n c => 10 * n + ((c.toNat - 48 : Nat) : Int)) 0

/-- `strtol` saturates at the 64-bit range, the result is narrowed to 32 bits -/
def narrow (n : Int) : Int := Int.bmod (max (-2^63) (min (2^63 - 1) n)) (2^32)

def atoi (s : String) : Int :=
  match s.toList.dropWhile isBlank with
  | '-' :: ds => narrow (-decimal ds)
  | '+' :: ds => narrow (decimal ds)
  | ds => narrow (decimal ds)

/-- the comma-separated list of `-A`: an empty last part is dropped -/
def parseAffinity : List Char → List Char → List Int
  | cur, [] => if cur.isEmpty then [] else [atoi (String.ofList cur)]
  | cur, c :: cs =>
    if c = ',' then atoi (String.ofList cur) :: parseAffinity [] cs else parseAffinity (cur ++ [c]) cs

/-- one case of the switch; the flag says whether `-l` has been given -/
def applyOpt (cfg : Config) (lenUserSet : Bool) : Opt → Except Exit (Config × Bool)
  | .server => .ok ({ cfg with mode := .server }, lenUserSet)
  | .client host => .ok ({ cfg with mode := .client, serverIp := host }, lenUserSet)
  | .port arg => .ok ({ cfg with port := (atoi arg % 2^16).toNat }, lenUserSet)
  | .udp => .ok ({ cfg with protocol := .udp }, lenUserSet)
  | .reverse => .ok ({ cfg with reverse := true }, lenUserSet)
  | .zerocopy => .ok ({ cfg with zeroCopy := true }, lenUserSet)
  | .zcrx => .ok ({ cfg with useZcrx := true }, lenUserSet)
  | .zcrxIf arg => .ok ({ cfg with zcrxIfname := arg }, lenUserSet)
  | .zcrxQueue arg => .ok ({ cfg with zcrxBaseQueue := (atoi arg % 2^32).toNat }, lenUserSet)
  | .noMultishotRecv => .ok ({ cfg with multishotRecv := false }, lenUserSet)
  | .sqpoll => .ok ({ cfg with sqpoll := true }, lenUserSet)
  | .parallel arg => .ok ({ cfg with threads := (max 1 (atoi arg)).toNat }, lenUserSet)
  | .multiProcess => .ok ({ cfg with multiProcess := true }, lenUserSet)
  | .len arg => .ok ({ cfg with bufSize := (max 64 (atoi arg)).toNat }, true)
  | .queueDepth arg => .ok ({ cfg with queueDepth := (max 16 (atoi arg)).toNat }, lenUserSet)
  | .noFixedBuf => .ok ({ cfg with fixedBuffers := false }, lenUserSet)
  | .affinity arg =>
    .ok ({ cfg with cpuAffinity := cfg.cpuAffinity ++ parseAffinity [] arg.toList }, lenUserSet)
  | .time arg => .ok ({ cfg with durationSec := (max 1 (atoi arg)).toNat }, lenUserSet)
  | .interval arg => .ok ({ cfg with intervalSec := (max 1 (atoi arg)).toNat }, lenUserSet)
  | .help => .error (.usage 0)
  | .unknown => .error (.usage 1)

def applyOpts : Config → Bool → List Opt → Except Exit (Config × Bool)
  | cfg, l, [] => .ok (cfg, l)
  | cfg, l, o :: os =>
    match applyOpt cfg l o with
    | .ok (cfg', l') => applyOpts cfg' l' os
    | .error e => .error e

def defaultLen (cfg : Config) (lenUserSet : Bool) : Config :=
  if !lenUserSet && cfg.protocol == .udp then { cfg with bufSize := 40 * cfg.udpGsoSize } else cfg

def zcrxIfMissing : String :=
  "[Error] -Y/--zcrx requires --zcrx-if <ifname> " ++
    "(on the server for normal mode, on the client for -R/--reverse)\n"

/-- the checks after the loop; `-R` on a server is dropped with a warning -/
def crossChecks (cfg : Config) : Except Exit Config :=
  let clientZcrxRecv := cfg.useZcrx && cfg.reverse && cfg.mode == .client
  if cfg.useZcrx && cfg.zcrxIfname.isEmpty && (cfg.mode == .server || clientZcrxRecv) then
    .error (.error 1 zcrxIfMissing)
  else if cfg.useZcrx && cfg.protocol == .udp then
    .error (.error 1 "[Error] -Y/--zcrx only supports TCP\n")
  else if cfg.reverse && cfg.protocol == .udp then
    .error (.error 1 "[Error] -R/--reverse only supports TCP\n")
  else if cfg.reverse && cfg.mode == .server then .ok { cfg with reverse := false }
  else .ok cfg

def parseArgs (opts : List Opt) : Except Exit Config :=
  match applyOpts {} false opts with
  | .ok (cfg, lenUserSet) => crossChecks (defaultLen cfg lenUserSet)
  | .error e => .error e

/-! ## accepted configurations -/

/-- what no option can break: the number of buffers is fixed and the queue depth is at least 16 -/
def Config.Sound (cfg : Config) : Prop := cfg.inFlight = 32 ∧ 16 ≤ cfg.queueDepth

theorem applyOpt_sound {cfg cfg' : Config} {l l' : Bool} {o : Opt}
    (h : applyOpt cfg l o = .ok (cfg', l')) (hs : cfg.Sound) : cfg'.Sound := by
  cases o with
  | queueDepth arg =>
    cases h
    refine ⟨hs.1, ?_⟩
    show 16 ≤ (max 16 (atoi arg)).toNat
    omega
  | help => cases h
  | unknown => cases h
  | _ => cases h; exact hs

section
variable {P : Config → Prop}

/-- what every option keeps holds after the loop -/
theorem applyOpts_inv (hopt : ∀ cfg cfg' l l' o, applyOpt cfg l o = .ok (cfg', l') → P cfg → P cfg')
    (os : List Opt) : ∀ {cfg cfg' : Config} {l l' : Bool},
    applyOpts cfg l os = .ok (cfg', l') → P cfg → P cfg' := by
  induction os with
  | nil =>
    intro cfg cfg' l l' h hs
    cases h
    exact hs
  | cons o os ih =>
    intro cfg cfg' l l' h hs
    unfold applyOpts at h
    cases ho : applyOpt cfg l o with
    | error e =>
      rw [ho] at h
      cases h
    | ok p =>
      rw [ho] at h
      exact ih h (hopt _ _ _ _ _ ho hs)

theorem crossChecks_inv (hrev : ∀ cfg, P cfg → P { cfg with reverse := false }) {cfg cfg' : Config}
    (h : crossChecks cfg = .ok cfg') (hs : P cfg) : P cfg' := by
  unfold crossChecks at h
  dsimp only at h
  split at h
  · cases h
  split at h
  · cases h
  split at h
  · cases h
  split at h
  · cases h
    exact hrev cfg hs
  · cases h
    exact hs

/-- **What the options keep holds of every accepted configuration.** -/
theorem parseArgs_inv (h0 : P {}) (hopt : ∀ cfg cfg' l l' o, applyOpt cfg l o = .ok (cfg', l') → P cfg → P cfg')
    (hlen : ∀ cfg n, P cfg → P { cfg with bufSize := n })
    (hrev : ∀ cfg, P cfg → P { cfg with reverse := false }) {opts : List Opt} {cfg : Config}
    (h : parseArgs opts = .ok cfg) : P cfg := by
  unfold parseArgs at h
  cases ho : applyOpts {} false opts with
  | error e =>
    rw [ho] at h
    cases h
  | ok p =>
    rw [ho] at h
    refine crossChecks_inv hrev h ?_
    unfold defaultLen
    split
    · exact hlen _ _ (applyOpts_inv hopt opts ho h0)
    · exact applyOpts_inv hopt opts ho h0

end

theorem parseArgs_ok {opts : List Opt} {cfg : Config} (h : parseArgs opts = .ok cfg) : cfg.Sound :=
  parseArgs_inv ⟨rfl, by decide⟩ (fun _ _ _ _ _ => applyOpt_sound) (fun _ _ hs => hs) (fun _ hs => hs) h

/-- the port is a 16-bit number and there is at least one thread -/
def Config.Ranged (cfg : Config) : Prop := cfg.port < 2^16 ∧ 1 ≤ cfg.threads

theorem parseArgs_ranged {opts : List Opt} {cfg : Config} (h : parseArgs opts = .ok cfg) : cfg.Ranged := by
  refine parseArgs_inv ⟨by decide, by decide⟩ ?_ (fun _ _ hs => hs) (fun _ hs => hs) h
  intro cfg cfg' l l' o ho hs
  cases o with
  | port arg =>
    cases ho
    refine ⟨?_, hs.2⟩
    show (atoi arg % 2^16).toNat < 2^16
    omega
  | parallel arg =>
    cases ho
    refine ⟨hs.1, ?_⟩
    show 1 ≤ (max 1 (atoi arg)).toNat
    omega
  | help => cases ho
  | unknown => cases ho
  | _ => cases ho; exact hs

/-! ## the kernel's queue size -/

/-- the least power of two that is at least the queue depth -/
def sqEntries (queueDepth : Nat) : Nat := 2 ^ Nat.clog 2 queueDepth

theorem sqEntries_le (q k : Nat) (h : q ≤ 2^k) : sqEntries q ≤ 2^k :=
  Nat.pow_le_pow_right Nat.two_pos (Nat.clog_le_of_le_pow h)

theorem le_sqEntries (q : Nat) : q ≤ sqEntries q := Nat.le_pow_clog Nat.one_lt_two q

/-- one more than a power of two already doubles the queue -/
theorem sqEntries_of_lt (q k : Nat) (h : 2^k < q) : 2^(k+1) ≤ sqEntries q :=
  Nat.pow_le_pow_right Nat.two_pos ((Nat.lt_clog_iff_pow_lt Nat.one_lt_two).mpr h)

end UringPerf
