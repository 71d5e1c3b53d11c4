import UringPerf.Server.Queue

/-!
# One armed receive for each forward session

With multishot receives a forward session lives by a single operation: the table and the outstanding
multishot receives correspond one to one.

* `Armed`       every forward session has an armed receive;
* `armed_step`  one action keeps this as long as no entry is refused;
* `armed_one`   the correspondence in every reachable state.
-/

namespace UringPerf
namespace Server
open Uring

section
variable {L : Setup}

def Armed (s : St) : Prop := ∀ f ss, s.sessions.lookup f = some ss → ss.isReverse = false →
  1 ≤ s.ring.armedIn Sqe.kind msKey ss.conn

/-- a terminated receive whose session stays in the table is queued again -/
theorem queued_rearm {now : Nat} {hs : Option (Bool × Nat)} {s : St} {c : Cqe Sqe} {conn : Conn}
    {ss : ClientSession} (hm : L.useMultishot = true) (htcp : L.config.protocol = .tcp)
    (h : OfConn L c.op conn) (hk : msKey c.op = some conn)
    (hcl : (Sqe.kind c.op).closes c.toCompletion = true)
    (hl : s.sessions.lookup conn.fd = some ss) (he : ended L s c = none) :
    1 ≤ (queued L now hs s c).countP (fun o => msKey o = some conn) := by
  have hop := (msKey_some.mp hk).1
  have ht : c.op.userData.type = .recv := by
    rcases h.type with ⟨-, h1⟩ | ⟨h1, -⟩ | ⟨h1, -⟩
    · exact absurd hop (send_not_multishot h1)
    · exact h1
    · exact h1
  have hmore : c.more = false := by
    unfold Sqe.kind at hcl
    rw [hop] at hcl
    exact (Bool.not_eq_true' _).mp hcl
  -- the session is found, so the completion is not one that ends it
  have hends : recvEnds L c.toCompletion = false := by
    cases hr : recvEnds L c.toCompletion with
    | false => rfl
    | true =>
      unfold ended at he
      rw [if_pos ⟨ht, hr⟩, h.ctxFd, hl] at he
      cases he
  have hres : c.res = -ENOBUFS := by
    unfold recvEnds at hends
    rw [if_pos hm, hmore, htcp] at hends
    simpa using hends
  unfold queued
  rw [ht]
  dsimp only
  rw [if_pos hm, hmore, hres]
  have hkey : msKey (recvMultishotSqe s.engine.reg s.engine.pool.bgid c.op.userData.fd c.op.userData
      L.udpFixedFile) = some conn := msKey_some.mpr ⟨rfl, h.conn⟩
  simp [hkey]

/-- a completion: the session is an old one whose receive is untouched or queued again, or the new one -/
theorem armed_cqe {now : Nat} {hs : Option (Bool × Nat)} {s t : St} {n : Nat} {c : Cqe Sqe}
    {cs : List (Cqe Sqe)} (hm : L.useMultishot = true) (htcp : L.config.protocol = .tcp)
    (hi : Inv L s) (hc : CqeStep L now hs s t n c cs) (hn : t.ring.nulls = 0) (ha : Armed s) :
    Armed t := by
  -- an old session keeps its receive unless the completion has terminated it
  have keep : ∀ k : Conn, 1 ≤ s.ring.armedIn Sqe.kind msKey k →
      (msKey c.op = some k → (Sqe.kind c.op).closes c.toCompletion = true →
        1 ≤ (queued L now hs s c).countP (fun o => msKey o = some k)) →
      1 ≤ t.ring.armedIn Sqe.kind msKey k := by
    intro k h1 hq
    have h2 := (hc.armedIn hn msKey k).2
    split at h2
    · next h3 =>
      have := hq h3.1 h3.2
      omega
    · omega
  intro f ss hl hr
  rw [hc.sessions] at hl
  cases (hi.ops _ (head_outstanding hc.cq)).shape with
  | accept h =>
    have hkey : msKey c.op ≠ some ss.conn := by
      rw [h, accept_msKey]
      exact nofun
    rcases accept_cases now hs hi hc.not_done.1 hc.cq h with hb | ⟨ss', ops, hb⟩
    · rw [hb.sessions] at hl
      exact keep ss.conn (ha f ss hl hr) fun hk => absurd hk hkey
    · rw [hb.book] at hl
      replace hl : (s.sessions.insert c.res ss').lookup f = some ss := hl
      rw [AList.lookup_insert_eq] at hl
      split at hl
      · cases hl
        have h2 := (hc.armedIn hn msKey ss.conn).2
        have h3 := hb.armed hr hm
        rw [if_neg (fun h3 => hkey h3.1), hb.queued, List.countP_append] at h2
        omega
      · exact keep ss.conn (ha f ss hl hr) fun hk => absurd hk hkey
  | session conn h =>
    rw [book_session h] at hl
    cases he : ended L s c with
    | none =>
      rw [he] at hl
      refine keep ss.conn (ha f ss hl hr) fun hk hcl => ?_
      have hconn : conn = ss.conn := Option.some.inj (h.conn.symm.trans (msKey_some.mp hk).2)
      rw [hconn] at h
      have hfd : ss.conn.fd = f := by rw [(hi.sess f ss hl).conn]
      exact queued_rearm hm htcp h hk hcl (by rw [hfd]; exact hl) he
    | some ss' =>
      rw [he] at hl
      replace hl : (s.sessions.erase conn.fd).lookup f = some ss := hl
      rw [AList.lookup_erase_eq] at hl
      split at hl
      · cases hl
      · next hf =>
        refine keep ss.conn (ha f ss hl hr) fun hk _ => ?_
        have hconn : conn = ss.conn := Option.some.inj (h.conn.symm.trans (msKey_some.mp hk).2)
        rw [hconn, (hi.sess f ss hl).conn] at hf
        exact absurd rfl hf

/-- **One action keeps every forward session armed**, as long as no entry is refused. -/
theorem armed_step {s t : St} {a : Act} (hm : L.useMultishot = true)
    (htcp : L.config.protocol = .tcp) (hi : Inv L s) (h : step L s a = some t)
    (hs : s.ring.nulls = 0 → Armed s) : t.ring.nulls = 0 → Armed t := by
  intro hn
  rcases step_quiet h with ⟨now, hs', n, c, cs, -, hc⟩ | ⟨-, hq⟩
  · exact armed_cqe hm htcp hi hc hn (hs (hc.armedIn hn msKey ⟨0, 0⟩).1)
  · intro f ss hl hr
    rw [hq.armedIn]
    exact hs (hq.nulls.symm.trans hn) f ss (hq.sessions f ss hl) hr

theorem armed_start (cap : Nat) : Armed (start L cap) := by
  intro f ss hl
  rw [show (start L cap).sessions = ∅ from rfl, AList.lookup_empty] at hl
  cases hl

theorem reach_armed (htcp : L.config.protocol = .tcp) (hm : L.useMultishot = true) {cap : Nat} {s : St}
    (h : Trans.Reach (step L) (start L cap) s) (hn : s.ring.nulls = 0) : Armed s := by
  have hall := h.inv (I := fun s => Inv L s ∧ (s.ring.nulls = 0 → Armed s)) ?_ ?_
  · exact hall.2 hn
  · exact ⟨inv_start htcp cap, fun _ => armed_start cap⟩
  · intro s a t hs hst
    exact ⟨inv_step s a t hs.1 hst, armed_step hm htcp hs.1 hst hs.2⟩

/-- a connection whose receive runs out of buffers once -/
def rearmRun : List Act :=
  [.post 0 (.plain 7), .sweep 0, .reap, .cqe 0 (some (false, 10)), .submit,
    .post 0 (.plain (-ENOBUFS)), .sweep 0, .reap, .cqe 0 none, .submit]

end
end Server
end UringPerf
