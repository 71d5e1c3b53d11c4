import Mathlib
import UringPerf.Base.Segments
import UringPerf.Base.Trace
import UringPerf.Client.Effect
import UringPerf.Client.Send
import UringPerf.Recv.Buffers

/-!
# The packets counted over UDP

A UDP client hands the kernel several datagrams with one send, and the server receives several of them with one
completion.  The two groupings have nothing to do with each other; both sides estimate the number of datagrams from
the number of bytes.

* `chunk`                      the bytes moved by one completion;
* `Client.accepted`            the sizes shown by a step of the send loop;
* `Server.received`            the sizes shown by a step of the server loop;
* `Server.deliveringStep`      the server loop, with a kernel that puts the data of a multishot receive into a buffer;
* `SendRun`, `RecvRun`         whole runs of both sides with segments of `g` bytes;
* `datagrams`, `Grouped`       the datagrams of a list of sends, and a way to receive them;
* `packets_agree`              all counts agree for full segments; otherwise each short end costs one packet.
-/

namespace UringPerf
open Uring Segment

def chunk (c : Completion) : List Nat := if 0 < c.res then [c.res.toNat] else []

theorem chunk_pos {c : Completion} : ∀ n ∈ chunk c, 0 < n := by
  intro n hn
  unfold chunk at hn
  split at hn
  · next h =>
    rw [List.mem_singleton.mp hn]
    omega
  · exact absurd hn List.not_mem_nil

/-- what a queue shows is what its first completion shows -/
theorem head_pos {ε : Type} {f : ε → List Nat} (hf : ∀ c, ∀ n ∈ f c, 0 < n) (o : Option ε) :
    ∀ n ∈ o.elim [] f, 0 < n := by
  cases o with
  | none => exact fun n hn => absurd hn List.not_mem_nil
  | some c => exact hf c

/-! ## the client -/

namespace Client

/-- the bytes the kernel has accepted, by the completion that is processed; a notification carries none -/
def accepted (s : St) : Act → List Nat
  | .cqe => s.ring.cq.head?.elim [] fun c => if c.notif then [] else chunk c.toCompletion
  | _ => []

section
variable {L : Setup} {s t : St}

theorem accepted_pos (s : St) (a : Act) : ∀ n ∈ accepted s a, 0 < n := by
  cases a with
  | cqe =>
    refine head_pos (fun c n hn => ?_) s.ring.cq.head?
    split at hn
    · exact absurd hn List.not_mem_nil
    · exact chunk_pos n hn
  | reap | submit | finish | signal | post | consume => exact fun n hn => absurd hn List.not_mem_nil

theorem sendPackets_udp (hudp : L.config.protocol = .udp) (res : Int) :
    sendPackets L res = estimate L.config.udpGsoSize res.toNat := if_pos hudp

theorem onSend_packets (hudp : L.config.protocol = .udp) (ctx : IOContext) (c : Completion) :
    (onSend L s ctx c).stats.packetsCount = s.stats.packetsCount +
      ((if c.notif then [] else chunk c).map (estimate L.config.udpGsoSize)).sum := by
  unfold onSend chunk
  cases c.notif with
  | true => rfl
  | false =>
    simp only [Bool.false_eq_true, if_false]
    by_cases hr : 0 < c.res
    · rw [if_pos hr, if_pos hr, List.map_singleton, List.sum_singleton, ← sendPackets_udp hudp]
      split <;> rfl
    · rw [if_neg hr, if_neg hr]
      split
      · split <;> rfl
      · unfold St.errorIfNeg
        split <;> rfl

/-- only a processed completion counts packets -/
theorem sendStep_packets (hudp : L.config.protocol = .udp) {a : Act} (h : sendStep L s a = some t) :
    t.stats.packetsCount = s.stats.packetsCount + ((accepted s a).map (estimate L.config.udpGsoSize)).sum := by
  cases step_cases h with
  | cqe n c cs hpc hcq =>
    have hobs : accepted s .cqe = if c.notif then [] else chunk c.toCompletion := by
      unfold accepted
      rw [hcq, List.head?_cons, Option.elim_some]
    rw [hobs]
    exact onSend_packets hudp c.op.userData c.toCompletion
  | idle | reap | submit | finish | signal | post | consume => rfl

theorem sendStart_packets (L : Setup) (cap : Nat) : (sendStart L cap).stats.packetsCount = 0 :=
  congrArg ThreadStats.packetsCount (prime_effect L.sendCtxs (blank L L.sendReg cap) rfl).2

end
end Client

/-! ## the server -/

namespace Server

/-- the bytes received with the completion that is processed -/
def received (s : St) : Act → List Nat
  | .cqe _ _ => s.ring.cq.head?.elim [] fun c => chunk c.toCompletion
  | _ => []

section
variable {L : Setup} {s t : St}

theorem received_pos (s : St) (a : Act) : ∀ n ∈ received s a, 0 < n := by
  cases a with
  | cqe now hs => exact head_pos (fun c => chunk_pos) s.ring.cq.head?
  | sweep | reap | submit | finish | signal | post | consume => exact fun n hn => absurd hn List.not_mem_nil

/-- whether the data of a posted completion is in a buffer of the ring, where a multishot receive needs one -/
def delivers (L : Setup) : Act → Bool
  | .post _ c => !L.useMultishot || !decide (0 < c.res) || c.buffer.isSome
  | _ => true

def deliveringStep (L : Setup) (s : St) (a : Act) : Option St := if delivers L a then step L s a else none

theorem deliveringStep_some {a : Act} (h : deliveringStep L s a = some t) :
    delivers L a = true ∧ step L s a = some t := by
  unfold deliveringStep at h
  split at h
  · next hd => exact ⟨hd, h⟩
  · cases h

structure Delivered (L : Setup) (s : St) : Prop where
  recvs : UdpRecvs L s
  data : L.useMultishot = true → ∀ c ∈ s.ring.cq, 0 < c.res → c.buffer.isSome = true

theorem delivered_step (hudp : L.config.protocol = .udp) (s : St) (a : Act) (t : St) (hi : Delivered L s)
    (h : deliveringStep L s a = some t) : Delivered L t := by
  obtain ⟨hd, hst⟩ := deliveringStep_some h
  refine ⟨udpRecvs_step hudp hi.recvs hst, fun hm c hc hr => ?_⟩
  rcases Recv.server_cases L hst with ⟨now, hs, d, cs, -, hcq, -, hring⟩ | ⟨i, d, rfl, -, hp⟩ | ⟨-, -, hcq, -⟩
  · rw [hring, IoRing.pushAll_cq] at hc
    exact hi.data hm c (List.mem_of_mem_tail hc) hr
  · obtain ⟨p, rest, -, -, -, -, hcq, -⟩ := IoRing.post_some hp
    rw [hcq, List.mem_append, List.mem_singleton] at hc
    rcases hc with hc | rfl
    · exact hi.data hm c hc hr
    · replace hd : (!L.useMultishot || !decide (0 < d.res) || d.buffer.isSome) = true := hd
      rwa [hm, decide_eq_true hr] at hd
  · exact hi.data hm c (hcq ▸ hc) hr

theorem delivered_start (hudp : L.config.protocol = .udp) (cap : Nat) : Delivered L (start L cap) := by
  refine ⟨udpRecvs_start hudp cap, fun _ c hc => ?_⟩
  rw [udp_start_ring hudp cap, IoRing.submit_cq, IoRing.pushAll_cq] at hc
  exact absurd hc List.not_mem_nil

theorem recvPackets_udp (hudp : L.config.protocol = .udp) (res : Int) :
    recvPackets L res = estimate L.config.udpGsoSize res.toNat := if_pos hudp

theorem errorIfNeg_packets (s : St) (res : Int) : (s.errorIfNeg res).stats.packetsCount = s.stats.packetsCount := by
  unfold St.errorIfNeg
  split <;> rfl

/-- the multishot branch counts what comes in a buffer -/
theorem takeBuffer_packets (hudp : L.config.protocol = .udp) {c : Completion}
    (hb : 0 < c.res → c.buffer.isSome = true) : (s.takeBuffer L c).stats.packetsCount =
      s.stats.packetsCount + ((chunk c).map (estimate L.config.udpGsoSize)).sum := by
  unfold St.takeBuffer chunk
  by_cases hr : 0 < c.res
  · obtain ⟨id, hid⟩ := Option.isSome_iff_exists.mp (hb hr)
    rw [hid, if_pos hr, List.map_singleton, List.sum_singleton, ← recvPackets_udp hudp]
    simp only [hr, if_true]
    rfl
  · rw [if_neg hr]
    cases c.buffer with
    | none => rfl
    | some id =>
      simp only [hr, if_false]
      rfl

theorem onRecvMultishot_packets (hudp : L.config.protocol = .udp) (ctx : IOContext) {c : Completion}
    (hb : 0 < c.res → c.buffer.isSome = true) : (onRecvMultishot L s ctx c).stats.packetsCount =
      s.stats.packetsCount + ((chunk c).map (estimate L.config.udpGsoSize)).sum := by
  rw [← takeBuffer_packets hudp hb]
  unfold onRecvMultishot
  simp only [hudp, if_true]
  split
  · rfl
  · split
    · rfl
    · split
      · exact errorIfNeg_packets _ _
      · exact errorIfNeg_packets _ _

theorem onRecv_packets (hudp : L.config.protocol = .udp) (hsess : ∀ f, s.sessions.lookup f = none) (ctx : IOContext)
    (c : Completion) : (onRecv L s ctx c).stats.packetsCount =
      s.stats.packetsCount + ((chunk c).map (estimate L.config.udpGsoSize)).sum := by
  unfold onRecv chunk
  by_cases hr : 0 < c.res
  · rw [if_pos hr, if_pos hr, List.map_singleton, List.sum_singleton, ← recvPackets_udp hudp]
    rfl
  · rw [if_neg hr, if_neg hr, hsess ctx.fd]
    split
    · rfl
    · exact errorIfNeg_packets _ _

/-- only a processed completion changes the counters -/
theorem step_stats {a : Act} (h : step L s a = some t) :
    (∃ now hs c cs, a = .cqe now hs ∧ s.ring.cq = c :: cs ∧ t.stats = (onCqe L now hs s c).stats) ∨
      ((∀ s, received s a = []) ∧ t.stats = s.stats) := by
  cases a with
  | sweep now =>
    obtain ⟨-, -, rfl⟩ := step_sweep h
    have e : (sweep now s).stats = s.stats := by rw [sweep_eq]
    exact Or.inr ⟨fun _ => rfl, e⟩
  | reap =>
    obtain ⟨-, ⟨-, rfl⟩ | ⟨-, rfl⟩⟩ := step_reap h
    · exact Or.inr ⟨fun _ => rfl, rfl⟩
    · exact Or.inr ⟨fun _ => rfl, rfl⟩
  | cqe now hs =>
    obtain ⟨n, c, cs, hc⟩ := step_cqe h
    refine Or.inl ⟨now, hs, c, cs, rfl, hc.cq, ?_⟩
    simp only [step, hc.pc, hc.cq] at h
    cases h
    rfl
  | submit =>
    obtain ⟨-, rfl⟩ := step_submit h
    exact Or.inr ⟨fun _ => rfl, rfl⟩
  | finish =>
    obtain ⟨-, -, rfl⟩ := step_finish h
    have e : (cleanup s).stats = s.stats := by rw [cleanup_eq]
    exact Or.inr ⟨fun _ => rfl, e⟩
  | signal =>
    obtain ⟨-, rfl⟩ := step_signal h
    exact Or.inr ⟨fun _ => rfl, rfl⟩
  | post i c =>
    obtain ⟨-, p, r, -, -, ⟨-, -, -, -, rfl⟩ | ⟨-, rfl⟩⟩ := step_post h
    · exact Or.inr ⟨fun _ => rfl, rfl⟩
    · exact Or.inr ⟨fun _ => rfl, rfl⟩
  | consume =>
    obtain ⟨-, r, -, rfl⟩ := step_consume h
    exact Or.inr ⟨fun _ => rfl, rfl⟩

theorem deliveringStep_packets (hudp : L.config.protocol = .udp) (s : St) (a : Act) (t : St) (hi : Delivered L s)
    (h : deliveringStep L s a = some t) : t.stats.packetsCount =
      s.stats.packetsCount + ((received s a).map (estimate L.config.udpGsoSize)).sum := by
  rcases step_stats (deliveringStep_some h).2 with ⟨now, hs, c, cs, rfl, hcq, ht⟩ | ⟨hobs, ht⟩
  · have hrecv : c.op.userData.type = .recv := (hi.recvs.recvs c.op (head_outstanding hcq)).1
    have hobs : received s (.cqe now hs) = chunk c.toCompletion := by
      unfold received
      rw [hcq, List.head?_cons, Option.elim_some]
    rw [ht, hobs]
    unfold onCqe
    rw [hrecv]
    dsimp only
    cases hm : L.useMultishot with
    | true =>
      have hb : 0 < c.res → c.buffer.isSome = true := hi.data hm c (hcq ▸ List.mem_cons_self)
      exact onRecvMultishot_packets hudp c.op.userData hb
    | false => exact onRecv_packets hudp hi.recvs.sessions c.op.userData c.toCompletion
  · rw [ht, hobs]
    rfl

end
end Server

/-! ## whole runs -/

namespace Protocol

/-- a run of a UDP client that sends segments of `g` bytes -/
structure SendRun (g : Nat) where
  setup : Client.Setup
  udp : setup.config.protocol = .udp
  gso : setup.config.udpGsoSize = g
  cap : Nat
  acts : List Client.Act
  run : (Trans.runFrom (Client.sendStep setup) (Client.sendStart setup cap) acts).isSome = true

/-- a run of a UDP server that counts segments of `g` bytes, with or without multishot receives -/
structure RecvRun (g : Nat) (multishot : Bool) where
  setup : Server.Setup
  udp : setup.config.protocol = .udp
  gso : setup.config.udpGsoSize = g
  mode : setup.useMultishot = multishot
  cap : Nat
  acts : List Server.Act
  run : (Trans.runFrom (Server.deliveringStep setup) (Server.start setup cap) acts).isSome = true

section
variable {g : Nat} {multishot : Bool}

def SendRun.sizes (C : SendRun g) : List Nat :=
  Trans.observed (Client.sendStep C.setup) Client.accepted (Client.sendStart C.setup C.cap) C.acts

/-- what the worker has counted at the end of the run -/
def SendRun.packets (C : SendRun g) : Nat := (Option.get _ C.run).stats.packetsCount

def RecvRun.sizes (R : RecvRun g multishot) : List Nat :=
  Trans.observed (Server.deliveringStep R.setup) Server.received (Server.start R.setup R.cap) R.acts

def RecvRun.packets (R : RecvRun g multishot) : Nat := (Option.get _ R.run).stats.packetsCount

theorem SendRun.sizes_pos (C : SendRun g) : ∀ n ∈ C.sizes, 0 < n := Trans.observed_all Client.accepted_pos _ _

theorem RecvRun.sizes_pos (R : RecvRun g multishot) : ∀ n ∈ R.sizes, 0 < n :=
  Trans.observed_all Server.received_pos _ _

/-- **The client's counter is the sum of the estimates.** -/
theorem SendRun.packets_eq (C : SendRun g) : C.packets = (C.sizes.map (estimate g)).sum := by
  have h := Trans.observed_sum (I := fun _ => True) (fun _ _ _ _ _ => trivial)
    (fun s a t _ hst => Client.sendStep_packets C.udp hst) C.acts _ _ trivial (Option.some_get C.run).symm
  rw [Client.sendStart_packets, Nat.zero_add, C.gso] at h
  exact h

/-- **So is the server's, in both modes.** -/
theorem RecvRun.packets_eq (R : RecvRun g multishot) : R.packets = (R.sizes.map (estimate g)).sum := by
  have h := Trans.observed_sum (Server.delivered_step R.udp) (Server.deliveringStep_packets R.udp) R.acts _ _
    (Server.delivered_start R.udp R.cap) (Option.some_get R.run).symm
  replace h : _ = 0 + _ := h
  rw [Nat.zero_add, R.gso] at h
  exact h

/-! ## the datagrams between them -/

/-- the datagrams of the sends -/
def datagrams (g : Nat) (sizes : List Nat) : List Nat := sizes.flatMap (segments g)

/-- the datagrams are received in order, one or more with each completion -/
def Grouped (sent sizes : List Nat) : Prop :=
  ∃ groups : List (List Nat), groups.flatten = sent ∧ (∀ l ∈ groups, l ≠ []) ∧ sizes = groups.map List.sum

theorem datagrams_full {sizes : List Nat} (h : ∀ n ∈ sizes, g ∣ n) : ∀ n ∈ datagrams g sizes, n = g := by
  intro n hn
  obtain ⟨m, hm, hn⟩ := List.mem_flatMap.mp hn
  rw [segments_of_dvd (h m hm)] at hn
  exact List.eq_of_mem_replicate hn

/-- the sends themselves are a grouping of their datagrams -/
theorem grouped_datagrams {sizes : List Nat} (hpos : ∀ n ∈ sizes, 0 < n) : Grouped (datagrams g sizes) sizes := by
  refine ⟨sizes.map (segments g), (List.flatMap_def).symm, fun l hl => ?_, ?_⟩
  · obtain ⟨n, hn, rfl⟩ := List.mem_map.mp hl
    intro hnil
    have hsum := segments_sum g n
    rw [hnil, List.sum_nil] at hsum
    exact absurd (hpos n hn) (by omega)
  · rw [List.map_map]
    exact (List.map_id'' (fun n => segments_sum g n) sizes).symm

theorem Grouped.count {sent sizes : List Nat} (h : Grouped sent sizes) (hg : 1 ≤ g)
    (hfull : ∀ n ∈ sent, n = g) : (sizes.map (estimate g)).sum = sent.length := by
  obtain ⟨groups, rfl, hne, rfl⟩ := h
  exact sum_estimate_groups hg groups hne hfull

/-- one completion is counted short by at most one packet, exactly if its last segment is short -/
theorem estimate_bounds (hg : 1 ≤ g) {n : Nat} (hn : 0 < n) : estimate g n ≤ n ⌈/⌉ g ∧ n ⌈/⌉ g ≤ estimate g n + 1 ∧
    (estimate g n < n ⌈/⌉ g ↔ g < n ∧ ¬ g ∣ n) := by
  have h := estimate_add hg hn
  rw [← isShort_iff]
  cases hs : isShort g n with
  | true =>
    rw [hs, if_pos rfl] at h
    exact ⟨by omega, by omega, fun _ => rfl, fun _ => by omega⟩
  | false =>
    rw [hs, if_neg Bool.false_ne_true] at h
    exact ⟨by omega, by omega, fun hlt => absurd hlt (by omega), fun e => absurd e Bool.false_ne_true⟩

end

/-- **The packet counts do not depend on the batching.**  If the accepted sizes are multiples of the segment size, the
client and the server in both modes count the datagrams on the wire, however these are grouped.  For all sizes each
counter is below the number of segments by the number of its completions with a short end. -/
theorem packets_agree (g : Nat) (hg : 1 ≤ g) (C : SendRun g) (M : RecvRun g true) (S : RecvRun g false) :
    ((∀ n ∈ C.sizes, g ∣ n) → Grouped (datagrams g C.sizes) M.sizes → Grouped (datagrams g C.sizes) S.sizes →
      C.packets = (datagrams g C.sizes).length ∧ M.packets = (datagrams g C.sizes).length ∧
        S.packets = (datagrams g C.sizes).length) ∧
    (C.packets + C.sizes.countP (isShort g) = (C.sizes.map (· ⌈/⌉ g)).sum ∧
      M.packets + M.sizes.countP (isShort g) = (M.sizes.map (· ⌈/⌉ g)).sum ∧
      S.packets + S.sizes.countP (isShort g) = (S.sizes.map (· ⌈/⌉ g)).sum) ∧
    ∀ n : Nat, 0 < n →
      (Client.sendPackets C.setup n = max 1 (n / g) ∧ Server.recvPackets M.setup n = max 1 (n / g) ∧
        Server.recvPackets S.setup n = max 1 (n / g)) ∧
      max 1 (n / g) ≤ n ⌈/⌉ g ∧ n ⌈/⌉ g ≤ max 1 (n / g) + 1 ∧ (max 1 (n / g) < n ⌈/⌉ g ↔ g < n ∧ ¬ g ∣ n) := by
  refine ⟨fun hdvd hM hS => ?_, ⟨?_, ?_, ?_⟩, fun n hn => ⟨⟨?_, ?_, ?_⟩, estimate_bounds hg hn⟩⟩
  · have hfull := datagrams_full hdvd
    rw [C.packets_eq, M.packets_eq, S.packets_eq]
    exact ⟨(grouped_datagrams C.sizes_pos).count hg hfull, hM.count hg hfull, hS.count hg hfull⟩
  · rw [C.packets_eq]
    exact sum_estimate_add hg _ C.sizes_pos
  · rw [M.packets_eq]
    exact sum_estimate_add hg _ M.sizes_pos
  · rw [S.packets_eq]
    exact sum_estimate_add hg _ S.sizes_pos
  · rw [Client.sendPackets_udp C.udp, C.gso]
    rfl
  · rw [Server.recvPackets_udp M.udp, M.gso]
    rfl
  · rw [Server.recvPackets_udp S.udp, S.gso]
    rfl

/-- two sends of 40 and 2 segments, as the command line sets up the sizes -/
def twoSends : SendRun 1472 where
  setup := Client.worker { protocol := .udp, bufSize := 58880 }
  udp := rfl
  gso := rfl
  cap := 256
  acts := [.post 0 (.plain 58880), .post 0 (.plain 2944), .reap, .cqe, .cqe, .submit]
  run := by decide +kernel

/-- received as 30 and 12 of them -/
def multishotRun : RecvRun 1472 true where
  setup := Server.worker { mode := .server, protocol := .udp, bufSize := 58880 }
  udp := rfl
  gso := rfl
  mode := rfl
  cap := 256
  acts := [.post 0 ⟨44160, true, false, some 0⟩, .post 0 ⟨17664, true, false, some 1⟩, .sweep 0, .reap,
    .cqe 0 none, .cqe 0 none, .submit]
  run := by decide +kernel

/-- received as 22 and 20 of them -/
def singleShotRun : RecvRun 1472 false where
  setup := Server.udpSetup
  udp := rfl
  gso := rfl
  mode := rfl
  cap := 256
  acts := [.post 0 (.plain 32384), .post 0 (.plain 29440), .sweep 0, .reap, .cqe 0 none, .cqe 0 none, .submit]
  run := by decide +kernel

theorem packets_agree_twoSends : (datagrams 1472 twoSends.sizes).length = 42 ∧
    twoSends.packets = (datagrams 1472 twoSends.sizes).length ∧
    multishotRun.packets = (datagrams 1472 twoSends.sizes).length ∧
    singleShotRun.packets = (datagrams 1472 twoSends.sizes).length := by
  have hdvd : ∀ n ∈ twoSends.sizes, 1472 ∣ n := by decide +kernel
  have hM : Grouped (datagrams 1472 twoSends.sizes) multishotRun.sizes :=
    ⟨[List.replicate 30 1472, List.replicate 12 1472], by decide +kernel, by decide, by decide +kernel⟩
  have hS : Grouped (datagrams 1472 twoSends.sizes) singleShotRun.sizes :=
    ⟨[List.replicate 22 1472, List.replicate 20 1472], by decide +kernel, by decide, by decide +kernel⟩
  exact ⟨by decide +kernel, (packets_agree 1472 (by decide) twoSends multishotRun singleShotRun).1 hdvd hM hS⟩

end Protocol
end UringPerf
