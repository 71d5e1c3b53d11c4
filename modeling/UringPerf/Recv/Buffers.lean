import UringPerf.Client.Effect
import UringPerf.Engine.Select
import UringPerf.Server.Udp

/-!
# The multishot loops give every buffer back

The multishot branches of `run_server` and `run_client_reverse_recv` return the buffer of a completion when
they process it.  With the kernel selecting buffers in the order of the ring (`View.select`) no buffer is lost
or handed out twice, whatever the connections and the order of their completions.

* `Data`, `RecvOps`       what the outstanding operations have to satisfy;
* `serverView`, `clientView`           the loops as the buffer ring sees them;
* `server_returns`, `client_returns`   both return their buffers;
* `buffers_conserved`                  the buffer ring in every reachable state of both.
-/

namespace UringPerf
namespace Recv
open Uring

/-! ## completions with a buffer -/

/-- a completion that carries a buffer has data and belongs to a multishot receive -/
def Data (r : IoRing Sqe) : Prop :=
  ∀ c ∈ r.cq, c.buffer ≠ none → 0 < c.res ∧ c.op.kind = .multishot

/-- the multishot receives carry receive contexts -/
def RecvOps (r : IoRing Sqe) : Prop :=
  ∀ o ∈ r.outstanding, o.kind = .multishot → o.userData.type = .recv

theorem send_kind {o : Sqe} (h : o.opcode = .send ∨ o.opcode = .sendZc) : ¬ o.kind = .multishot := by
  unfold Sqe.kind
  rcases h with h | h <;> rw [h] <;> exact Kind.noConfusion

theorem allows_data {o : Sqe} {w : Bool} {c : Completion} (h : o.kind.allows w c = true)
    (hb : c.buffer ≠ none) : 0 < c.res ∧ o.kind = .multishot := by
  have hn : c.buffer.isNone = false := by
    rw [Option.isNone_eq_false_iff, Option.isSome_iff_ne_none]
    exact hb
  unfold Sqe.kind at h
  cases hk : o.opcode.kind with
  | once =>
    rw [hk] at h
    simp [Kind.allows, hn] at h
  | multishot =>
    rw [hk] at h
    simp only [Kind.allows, hn, Bool.false_or, Bool.and_eq_true, decide_eq_true_eq] at h
    exact ⟨h.2, hk⟩
  | zerocopy =>
    rw [hk] at h
    cases w <;> simp [Kind.allows, hn] at h

theorem Data.post {r r' : IoRing Sqe} {i : Nat} {c : Completion} (h : Data r)
    (hp : r.post Sqe.kind i c = some r') : Data r' := by
  obtain ⟨p, rest, -, -, ha, -, hcq, -⟩ := IoRing.post_some hp
  intro d hd hb
  rw [hcq, List.mem_append, List.mem_singleton] at hd
  rcases hd with hd | rfl
  · exact h d hd hb
  · exact allows_data ha hb

theorem Data.sublist {r r' : IoRing Sqe} (h : Data r) (hs : ∀ c ∈ r'.cq, c ∈ r.cq) : Data r' :=
  fun c hc hb => h c (hs c hc) hb

/-! ## the server -/

section
variable (L : Server.Setup)

def serverView : View Server.St Server.Act where
  step := Server.step L
  pool := fun s => s.engine.pool
  cq := fun s => s.ring.cq
  posted := fun a => match a with
    | .post _ c => some c
    | _ => none

theorem foldl_pool {f : UringEngine → IOContext → UringEngine} (hf : ∀ e ctx, (f e ctx).pool = e.pool)
    (ctxs : List IOContext) : ∀ e, (ctxs.foldl f e).pool = e.pool := by
  induction ctxs with
  | nil => exact fun e => rfl
  | cons ctx ctxs ih =>
    intro e
    rw [List.foldl_cons, ih, hf]

theorem prepSend_pool (e : UringEngine) (zeroCopy : Bool) (ctx : IOContext) (ff : Bool) :
    (e.prepSend zeroCopy ctx ff).2.pool = e.pool := by
  rw [UringEngine.prepSend_eq]
  rfl

theorem openSession_pool (s : Server.St) (now : Nat) (fd : Int) (reverse : Bool) (d : Nat) :
    (s.openSession L now fd reverse d).engine.pool = s.engine.pool := by
  unfold Server.St.openSession
  dsimp only
  split
  · exact foldl_pool (fun e ctx => prepSend_pool e _ ctx false) _ _
  · split
    · rfl
    · refine foldl_pool ?_ _ _
      exact fun e ctx => rfl

theorem onConnect_pool (now : Nat) (hs : Option (Bool × Nat)) (s : Server.St) (fd : Int) :
    (Server.onConnect L now hs s fd).engine.pool = s.engine.pool := by
  unfold Server.onConnect
  split
  · rfl
  · exact openSession_pool L _ _ _ _ _

theorem onAccept_pool (now : Nat) (hs : Option (Bool × Nat)) (s : Server.St) (res : Int) :
    (Server.onAccept L now hs s res).engine.pool = s.engine.pool := by
  unfold Server.onAccept
  split
  · exact onConnect_pool L now hs s res
  · rfl

theorem resend_pool (s : Server.St) (ctx : IOContext) : (s.resend L ctx).engine.pool = s.engine.pool :=
  prepSend_pool s.engine _ ctx false

theorem errorIfNeg_engine (s : Server.St) (res : Int) : (s.errorIfNeg res).engine = s.engine := by
  unfold Server.St.errorIfNeg
  split <;> rfl

theorem onSend_pool (now : Nat) (s : Server.St) (ctx : IOContext) (c : Completion) :
    (Server.onSend L now s ctx c).engine.pool = s.engine.pool := by
  unfold Server.onSend
  split
  · rfl
  · split
    · split
      · exact resend_pool L _ ctx
      · rfl
    · split
      · split
        · exact resend_pool L _ ctx
        · rfl
      · rw [errorIfNeg_engine]

theorem takeBuffer_pool (s : Server.St) {c : Completion} (h : c.buffer ≠ none → 0 < c.res) :
    (s.takeBuffer L c).engine.pool = s.engine.pool.takeBack c := by
  unfold Server.St.takeBuffer RecvPool.takeBack
  cases hb : c.buffer with
  | none => rfl
  | some id =>
    dsimp only
    rw [if_pos (h (by rw [hb]; exact nofun))]
    rfl

theorem onRecvMultishot_pool (s : Server.St) (ctx : IOContext) {c : Completion}
    (h : c.buffer ≠ none → 0 < c.res) :
    (Server.onRecvMultishot L s ctx c).engine.pool = s.engine.pool.takeBack c := by
  rw [← takeBuffer_pool L s h]
  unfold Server.onRecvMultishot
  generalize s.takeBuffer L c = u
  dsimp only
  split
  · rfl
  · split
    · rfl
    · split
      · split
        · rw [errorIfNeg_engine]
        · show (u.errorIfNeg c.res).engine.pool = u.engine.pool
          rw [errorIfNeg_engine]
      · split
        · rw [errorIfNeg_engine]
        · show (u.errorIfNeg c.res).engine.pool = u.engine.pool
          rw [errorIfNeg_engine]

/-- a completion of a receive context gives its buffer back, every other one leaves the ring alone -/
theorem onCqe_pool (hm : L.useMultishot = true) (now : Nat) (hs : Option (Bool × Nat)) (s : Server.St)
    (c : Cqe Sqe) (h : c.buffer ≠ none → 0 < c.res ∧ c.op.userData.type = .recv) :
    (Server.onCqe L now hs s c).engine.pool = s.engine.pool.takeBack c.toCompletion := by
  have hnone : c.op.userData.type ≠ .recv → s.engine.pool.takeBack c.toCompletion = s.engine.pool := by
    intro ht
    apply RecvPool.takeBack_none
    by_contra hb
    exact ht (h hb).2
  unfold Server.onCqe
  split
  · next ht => rw [hnone (by rw [ht]; exact nofun), onAccept_pool]
  · next ht => rw [hnone (by rw [ht]; exact nofun), onSend_pool]
  · rw [if_pos hm]
    exact onRecvMultishot_pool L s _ fun hb => (h hb).1
  · next ht => rw [hnone (by rw [ht]; exact nofun)]

/-- what the server queues for a multishot receive carries a receive context -/
theorem queued_recv {now : Nat} {hs : Option (Bool × Nat)} {s : Server.St} {c : Cqe Sqe} {o : Sqe}
    (ho : o ∈ Server.queued L now hs s c) (hop : o.kind = .multishot) :
    o.userData.type = .recv := by
  unfold Server.queued at ho
  split at ho
  · rcases List.mem_append.mp ho with ho | ho
    · split at ho
      · unfold Server.connectOps at ho
        split at ho
        · exact absurd ho List.not_mem_nil
        · unfold Server.sessionOps at ho
          split at ho
          · obtain ⟨ctx, -, rfl⟩ := List.mem_map.mp ho
            exact absurd hop (send_kind (sendSqe_opcode _ _ _ _))
          · split at ho
            · rw [List.mem_singleton.mp ho]
              rfl
            · obtain ⟨ctx, -, rfl⟩ := List.mem_map.mp ho
              cases hop
      · exact absurd ho List.not_mem_nil
    · rw [List.mem_singleton.mp ho] at hop
      cases hop
  · split at ho
    · rw [List.mem_singleton.mp ho] at hop
      exact absurd hop (send_kind (sendSqe_opcode _ _ _ _))
    · exact absurd ho List.not_mem_nil
  · next ht =>
    split at ho
    · split at ho
      · rw [List.mem_singleton.mp ho]
        exact ht
      · exact absurd ho List.not_mem_nil
    · split at ho
      · rw [List.mem_singleton.mp ho] at hop
        cases hop
      · exact absurd ho List.not_mem_nil
  · exact absurd ho List.not_mem_nil

/-- an action processes a completion, posts one, or leaves the buffer ring and the completions alone -/
theorem server_cases {s t : Server.St} {a : Server.Act} (h : Server.step L s a = some t) :
    (∃ now hs c cs, a = .cqe now hs ∧ s.ring.cq = c :: cs ∧
        t.engine.pool = (Server.onCqe L now hs s c).engine.pool ∧
        t.ring = s.ring.seen.pushAll (Server.queued L now hs s c)) ∨
      (∃ i c, a = .post i c ∧ t.engine.pool = s.engine.pool ∧
        s.ring.post Sqe.kind i c = some t.ring) ∨
      ((serverView L).posted a = none ∧ t.engine.pool = s.engine.pool ∧ t.ring.cq = s.ring.cq ∧
        ∀ o ∈ t.ring.outstanding, o ∈ s.ring.outstanding) := by
  cases a with
  | sweep now =>
    obtain ⟨-, -, rfl⟩ := Server.step_sweep h
    have e : (Server.sweep now s).engine = s.engine := by rw [Server.sweep_eq]
    refine Or.inr (Or.inr ⟨rfl, by rw [e], ?_, ?_⟩)
    · show (Server.sweep now s).engine.ring.cq = s.engine.ring.cq
      rw [e]
    · intro o ho
      replace ho : o ∈ (Server.sweep now s).engine.ring.outstanding := ho
      rwa [e] at ho
  | reap =>
    obtain ⟨-, ⟨-, rfl⟩ | ⟨-, rfl⟩⟩ := Server.step_reap h
    · exact Or.inr (Or.inr ⟨rfl, rfl, IoRing.submit_cq _, fun o => IoRing.mem_outstanding_submit.mp⟩)
    · exact Or.inr (Or.inr ⟨rfl, rfl, rfl, fun o => id⟩)
  | cqe now hs =>
    obtain ⟨n, c, cs, hc⟩ := Server.step_cqe h
    refine Or.inl ⟨now, hs, c, cs, rfl, hc.cq, ?_, hc.ring⟩
    simp only [Server.step, hc.pc, hc.cq] at h
    cases h
    rfl
  | submit =>
    obtain ⟨-, rfl⟩ := Server.step_submit h
    exact Or.inr (Or.inr ⟨rfl, rfl, IoRing.submit_cq _, fun o => IoRing.mem_outstanding_submit.mp⟩)
  | finish =>
    obtain ⟨-, -, rfl⟩ := Server.step_finish h
    have e : (Server.cleanup s).engine = s.engine := by rw [Server.cleanup_eq]
    refine Or.inr (Or.inr ⟨rfl, by rw [e], ?_, ?_⟩)
    · show (Server.cleanup s).engine.ring.cq = s.engine.ring.cq
      rw [e]
    · intro o ho
      replace ho : o ∈ (Server.cleanup s).engine.ring.outstanding := ho
      rwa [e] at ho
  | signal =>
    obtain ⟨-, rfl⟩ := Server.step_signal h
    exact Or.inr (Or.inr ⟨rfl, rfl, rfl, fun o => id⟩)
  | post i c =>
    obtain ⟨-, p, r, -, hr, ⟨-, -, -, -, rfl⟩ | ⟨-, rfl⟩⟩ := Server.step_post h
    · exact Or.inr (Or.inl ⟨i, c, rfl, rfl, hr⟩)
    · exact Or.inr (Or.inl ⟨i, c, rfl, rfl, hr⟩)
  | consume =>
    obtain ⟨-, r, hr, rfl⟩ := Server.step_consume h
    obtain ⟨op, -, -, hcq, -⟩ := IoRing.consume_some hr
    exact Or.inr (Or.inr ⟨rfl, rfl, hcq, fun o => (IoRing.mem_outstanding_consume hr).mp⟩)

theorem server_returns (hm : L.useMultishot = true) :
    (serverView L).Returns fun s => Data s.ring ∧ RecvOps s.ring where
  inv := by
    rintro s a t ⟨hd, hr⟩ h
    rcases server_cases L h with ⟨now, hs, c, cs, -, hcq, -, hring⟩ | ⟨i, c, -, -, hp⟩ |
      ⟨-, -, hcq, ho⟩
    · rw [hring]
      constructor
      · refine hd.sublist fun d hd' => ?_
        rw [IoRing.pushAll_cq] at hd'
        exact List.mem_of_mem_tail hd'
      · intro o ho hop
        rcases Server.mem_after hcq ho with ho | ho
        · exact hr o ho hop
        · exact queued_recv L ho hop
    · exact ⟨hd.post hp, fun o ho => hr o ((IoRing.mem_outstanding_post hp).mp ho)⟩
    · exact ⟨hd.sublist fun c hc => by rwa [hcq] at hc, fun o ho' => hr o (ho o ho')⟩
  post := by
    rintro s a t c - h hpost
    rcases server_cases L h with ⟨now, hs, c, cs, rfl, -⟩ | ⟨i, c', rfl, hpool, hp⟩ | ⟨hn, -⟩
    · cases hpost
    · cases hpost
      obtain ⟨p, rest, -, -, -, -, hcq, -⟩ := IoRing.post_some hp
      exact ⟨hpool, p.op, hcq⟩
    · rw [hn] at hpost
      cases hpost
  other := by
    rintro s a t ⟨hd, hr⟩ h hn
    rcases server_cases L h with ⟨now, hs, c, cs, -, hcq, hpool, hring⟩ | ⟨i, c, rfl, -⟩ |
      ⟨-, hpool, hcq, -⟩
    · have hdata : c.buffer ≠ none → 0 < c.res ∧ c.op.userData.type = .recv := by
        intro hb
        obtain ⟨h1, h2⟩ := hd c (by rw [hcq]; exact List.mem_cons_self) hb
        exact ⟨h1, hr c.op (Server.head_outstanding hcq) h2⟩
      refine Or.inr ⟨c, ?_, ?_⟩
      · show s.ring.cq = c :: t.ring.cq
        rw [hring, IoRing.pushAll_cq, hcq]
        show _ = c :: s.ring.cq.tail
        rw [hcq]
        rfl
      · show t.engine.pool = _
        rw [hpool, onCqe_pool L hm now hs s c hdata]
        rfl
    · cases hn
    · exact Or.inl ⟨hpool, hcq⟩

/-- before the loop no completion has been posted -/
theorem server_start (hm : L.useMultishot = true) (cap : Nat) : (Server.start L cap).ring.cq = [] ∧
    (Server.start L cap).engine.pool = L.pool ∧ RecvOps (Server.start L cap).ring := by
  have hring : ∃ ops, (Server.start L cap).ring = ((IoRing.init cap L.sqpoll).pushAll ops).submit ∧
      ∀ o ∈ ops, o.kind = .multishot → o.userData.type = .recv := by
    cases hp : L.config.protocol with
    | tcp =>
      refine ⟨_, Server.start_ring hp cap, fun o ho hop => ?_⟩
      rw [List.mem_singleton.mp ho] at hop
      cases hop
    | udp => exact ⟨_, Server.udp_start_ring hp cap, fun o ho _ => (Server.udpPrime_recv ho).1⟩
  obtain ⟨ops, hring, hops⟩ := hring
  refine ⟨?_, ?_, fun o ho hop => ?_⟩
  · rw [hring, IoRing.submit_cq, IoRing.pushAll_cq]
    rfl
  · show (Server.primed L cap).pool = L.pool
    unfold Server.primed
    split
    · rfl
    · rw [if_pos hm]
      rfl
  · rw [hring, IoRing.mem_outstanding_submit] at ho
    rcases IoRing.mem_outstanding_pushAll _ ho with ho | ho
    · exact absurd ho List.not_mem_nil
    · exact hops o ho hop

end

/-! ## the client -/

section
variable (L : Client.Setup)

def clientView : View Client.St Client.Act where
  step := Client.recvStep L
  pool := fun s => s.engine.pool
  cq := fun s => s.ring.cq
  posted := fun a => match a with
    | .post _ c => some c
    | _ => none

theorem client_errorIfNeg (s : Client.St) (res : Int) : (s.errorIfNeg res).engine = s.engine := by
  unfold Client.St.errorIfNeg
  split <;> rfl

theorem client_takeBuffer_pool (s : Client.St) {c : Completion} (h : c.buffer ≠ none → 0 < c.res) :
    (s.takeBuffer c).engine.pool = s.engine.pool.takeBack c ∧ (s.takeBuffer c).ring = s.ring := by
  unfold Client.St.takeBuffer RecvPool.takeBack
  cases hb : c.buffer with
  | none => exact ⟨rfl, rfl⟩
  | some id =>
    dsimp only
    rw [if_pos (h (by rw [hb]; exact nofun))]
    exact ⟨rfl, rfl⟩

theorem client_onRecvMultishot (s : Client.St) (ctx : IOContext) {c : Completion}
    (h : c.buffer ≠ none → 0 < c.res) :
    (Client.onRecvMultishot L s ctx c).engine.pool = s.engine.pool.takeBack c ∧
      (Client.onRecvMultishot L s ctx c).ring.cq = s.ring.cq := by
  obtain ⟨h1, h2⟩ := client_takeBuffer_pool s h
  rw [← h1, ← h2]
  unfold Client.onRecvMultishot
  generalize s.takeBuffer c = u
  dsimp only
  split
  · exact ⟨rfl, rfl⟩
  · split
    · exact ⟨rfl, IoRing.push_cq u.ring _⟩
    · constructor
      · show (u.errorIfNeg c.res).engine.pool = _
        rw [client_errorIfNeg]
      · show (u.errorIfNeg c.res).engine.ring.cq = _
        rw [client_errorIfNeg]
        rfl

theorem client_cases {s t : Client.St} {a : Client.Act} (h : Client.recvStep L s a = some t) :
    (∃ c cs, a = .cqe ∧ s.ring.cq = c :: cs ∧ t.engine = (Client.recvCqe L s c).engine.cqeSeen) ∨
      (∃ i c, a = .post i c ∧ t.engine.pool = s.engine.pool ∧
        s.ring.post Sqe.kind i c = some t.ring) ∨
      ((clientView L).posted a = none ∧ t.engine.pool = s.engine.pool ∧ t.ring.cq = s.ring.cq) := by
  cases Client.step_cases h with
  | idle | submit => exact Or.inr (Or.inr ⟨rfl, rfl, IoRing.submit_cq _⟩)
  | reap | finish | signal => exact Or.inr (Or.inr ⟨rfl, rfl, rfl⟩)
  | cqe n c cs hpc hcq => exact Or.inl ⟨c, cs, rfl, hcq, rfl⟩
  | post i c r hpc hr => exact Or.inr (Or.inl ⟨i, c, rfl, rfl, hr⟩)
  | consume r hpc hr =>
    obtain ⟨op, -, -, hcq, -⟩ := IoRing.consume_some hr
    exact Or.inr (Or.inr ⟨rfl, rfl, hcq⟩)

/-- the completion at the head of the client's queue goes through the multishot branch -/
theorem client_cqe (hm : L.useMultishot = true) {s t : Client.St} {c : Cqe Sqe} {cs : List (Cqe Sqe)}
    (hd : Data s.ring) (hcq : s.ring.cq = c :: cs)
    (ht : t.engine = (Client.recvCqe L s c).engine.cqeSeen) :
    t.engine.pool = s.engine.pool.takeBack c.toCompletion ∧ t.ring.cq = cs := by
  have hb : c.buffer ≠ none → 0 < c.res :=
    fun hb => (hd c (by rw [hcq]; exact List.mem_cons_self) hb).1
  obtain ⟨h1, h2⟩ := client_onRecvMultishot L s c.op.userData hb
  have e : Client.recvCqe L s c = Client.onRecvMultishot L s c.op.userData c.toCompletion := by
    unfold Client.recvCqe
    rw [if_pos hm]
  constructor
  · rw [ht, e]
    exact h1
  · show t.engine.ring.cq = cs
    rw [ht, e]
    show (Client.onRecvMultishot L s c.op.userData c.toCompletion).ring.cq.tail = cs
    rw [h2, hcq]
    rfl

theorem client_returns (hm : L.useMultishot = true) : (clientView L).Returns fun s => Data s.ring where
  inv := by
    intro s a t hd h
    rcases client_cases L h with ⟨c, cs, -, hcq, ht⟩ | ⟨i, c, -, -, hp⟩ | ⟨-, -, hcq⟩
    · refine hd.sublist fun d hd' => ?_
      rw [(client_cqe L hm hd hcq ht).2] at hd'
      rw [hcq]
      exact List.mem_cons_of_mem _ hd'
    · exact hd.post hp
    · exact hd.sublist fun c hc => by rwa [hcq] at hc
  post := by
    rintro s a t c - h hpost
    rcases client_cases L h with ⟨c, cs, rfl, -⟩ | ⟨i, c', rfl, hpool, hp⟩ | ⟨hn, -⟩
    · cases hpost
    · cases hpost
      obtain ⟨p, rest, -, -, -, -, hcq, -⟩ := IoRing.post_some hp
      exact ⟨hpool, p.op, hcq⟩
    · rw [hn] at hpost
      cases hpost
  other := by
    intro s a t hd h hn
    rcases client_cases L h with ⟨c, cs, -, hcq, ht⟩ | ⟨i, c, rfl, -⟩ | ⟨-, hpool, hcq⟩
    · obtain ⟨h1, h2⟩ := client_cqe L hm hd hcq ht
      refine Or.inr ⟨c, ?_, h1⟩
      show s.ring.cq = c :: t.ring.cq
      rw [hcq, h2]
    · cases hn
    · exact Or.inl ⟨hpool, hcq⟩

theorem client_start (hm : L.useMultishot = true) (cap : Nat) :
    (Client.recvStart L cap).ring.cq = [] ∧ (Client.recvStart L cap).engine.pool = L.pool := by
  unfold Client.recvStart
  rw [if_pos hm]
  refine ⟨?_, rfl⟩
  show (IoRing.push _ _).2.submit.cq = []
  rw [IoRing.submit_cq, IoRing.push_cq]
  rfl

end

/-! ## both loops -/

theorem Data.nil {r : IoRing Sqe} (h : r.cq = []) : Data r := by
  intro c hc
  rw [h] at hc
  exact absurd hc List.not_mem_nil

/-- the buffer ring of a loop in the state `s`, and what its next action may do to it -/
def Intact {σ α : Type*} (V : View σ α) (s : Selecting σ) : Prop :=
  let p := V.pool s.loop
  Conserved p s.head (V.held s.loop) ∧
    (∀ e ∈ p.ready s.head, e.addr = p.base + e.bid * p.size ∧ e.len = p.size ∧
      e.addr + e.len ≤ p.base + p.count * p.size) ∧
    ((p.ready s.head).Pairwise fun a b => a.addr + a.len ≤ b.addr ∨ b.addr + b.len ≤ a.addr) ∧
    ∀ a t, V.select s a = some t → Kept V s t

theorem intact {σ α : Type*} {V : View σ α} {I : σ → Prop} (hV : V.Returns I) {s : Selecting σ}
    (h : Sound V I s) : Intact V s := by
  refine ⟨h.conserved, fun e he => ?_, h.conserved.disjoint, fun a t ht => (hV.step h ht).2⟩
  have hi := h.conserved.inside he
  have ho := h.conserved.own e he
  refine ⟨?_, ?_, hi.2.2⟩
  · exact congrArg BufEntry.addr ho
  · exact congrArg BufEntry.len ho

/-- **The provided buffers are conserved.**  For every number of buffers the kernel accepts, in every state
that the multishot loops reach with the kernel selecting buffers: every buffer is once in the ring or once in
an unprocessed completion, every entry of the ring describes its own part of the allocation, and no slot that
the kernel has not consumed is overwritten. -/
theorem buffers_conserved (bufCount : UInt32) (hok : Accepted bufCount) (base bufSize bgid cap : Nat) :
    (∀ L : Server.Setup, L.useMultishot = true →
        L.pool = setupMultishotRecv base bufCount bufSize bgid →
        ∀ s, Trans.Reach (serverView L).select ⟨Server.start L cap, 0⟩ s → Intact (serverView L) s) ∧
      ∀ L : Client.Setup, L.useMultishot = true →
        L.pool = setupMultishotRecv base bufCount bufSize bgid →
        ∀ s, Trans.Reach (clientView L).select ⟨Client.recvStart L cap, 0⟩ s →
          Intact (clientView L) s := by
  constructor
  · intro L hm hp s h
    obtain ⟨h1, h2, h3⟩ := server_start L hm cap
    have h0 : Sound (serverView L) (fun s => Data s.ring ∧ RecvOps s.ring) ⟨Server.start L cap, 0⟩ :=
      sound_setup hok ⟨Data.nil h1, h3⟩ (h2.trans hp) h1
    exact intact (server_returns L hm) ((server_returns L hm).reach h0 h)
  · intro L hm hp s h
    obtain ⟨h1, h2⟩ := client_start L hm cap
    have h0 : Sound (clientView L) (fun s => Data s.ring) ⟨Client.recvStart L cap, 0⟩ :=
      sound_setup hok (Data.nil h1) (h2.trans hp) h1
    exact intact (client_returns L hm) ((client_returns L hm).reach h0 h)

/-- a connection that gets two chunks, the first of which is processed -/
def twoChunks : List Server.Act :=
  [.post 0 (.plain 7), .sweep 0, .reap, .cqe 0 (some (false, 10)), .submit,
    .post 0 ⟨100, true, false, some 0⟩, .post 0 ⟨50, true, false, some 1⟩, .sweep 0, .reap, .cqe 0 none]

theorem buffers_conserved_default : Accepted 32 ∧ Server.defaultSetup.useMultishot = true ∧
    ∃ s, Trans.Reach (serverView Server.defaultSetup).select ⟨Server.start Server.defaultSetup 256, 0⟩ s ∧
      (serverView Server.defaultSetup).held s.loop = [1] ∧ Intact (serverView Server.defaultSetup) s := by
  have h : ∃ s, Trans.Reach (serverView Server.defaultSetup).select ⟨Server.start Server.defaultSetup 256, 0⟩ s ∧
      (serverView Server.defaultSetup).held s.loop = [1] := Trans.exists_reach twoChunks (by decide +kernel)
  obtain ⟨s, hreach, hheld⟩ := h
  have hok : Accepted 32 := ⟨by decide, by decide⟩
  exact ⟨hok, rfl, s, hreach, hheld,
    (buffers_conserved 32 hok 0 (128 * 1024) 0 256).1 Server.defaultSetup rfl rfl s hreach⟩

end Recv
end UringPerf
