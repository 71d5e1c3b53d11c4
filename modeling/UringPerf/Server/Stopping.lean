import UringPerf.Base.Trace
import UringPerf.Server.Queue

/-!
# The server after the stop signal

`run_server` looks at the stop signal at the head of its loop only, so a batch that has been collected is processed to
its end, and each accepted descriptor in it is asked for its handshake while the worker waits.  There is at most one: one
accept is outstanding at a time, and the one that a processed accept queues cannot be part of the same batch.

* `handshakes`              the descriptors on which a step waits for a handshake;
* `handshakesLeft`          how many the rest of the batch may bring;
* `one_handshake_left`      after the signal a server waits for at most one more.
-/

namespace UringPerf
namespace Server
open Uring

/-- `recv_handshake` is called for every descriptor that an accept has returned -/
def handshakes (s : St) : Act → List Int
  | .cqe _ _ =>
    match s.pc, s.ring.cq with
    | .batch (_ + 1), c :: _ => if accepts c then [c.res] else []
    | _, _ => []
  | _ => []

/-- the handshakes before the head of the loop is reached again -/
def handshakesLeft (s : St) : Nat :=
  match s.pc with
  | .head => 0
  | .reap => 1
  | .batch n => acceptsIn s n
  | .done => 0

section
variable {L : Setup} {s t : St}

/-- a batch is a part of what the completion queue holds -/
def Collected (s : St) : Prop := ∀ n, s.pc = .batch n → n ≤ s.ring.cq.length

theorem collected_step (s : St) (a : Act) (t : St) (h : Collected s) (hst : step L s a = some t) : Collected t := by
  intro n hn
  cases a with
  | sweep now =>
    obtain ⟨-, -, rfl⟩ := step_sweep hst
    cases hn
  | reap =>
    obtain ⟨-, ⟨-, rfl⟩ | ⟨-, rfl⟩⟩ := step_reap hst
    · cases hn
    · cases hn
      exact Nat.min_le_right _ _
  | cqe now hs =>
    obtain ⟨m, c, cs, hc⟩ := step_cqe hst
    have hle := h _ hc.pc
    rw [hc.pc'] at hn
    cases hn
    rw [hc.cq, List.length_cons] at hle
    rw [hc.ring, IoRing.pushAll_cq]
    show n ≤ s.ring.cq.tail.length
    rw [hc.cq, List.tail_cons]
    omega
  | submit =>
    obtain ⟨-, rfl⟩ := step_submit hst
    cases hn
  | finish =>
    obtain ⟨-, -, rfl⟩ := step_finish hst
    cases hn
  | signal =>
    obtain ⟨-, rfl⟩ := step_signal hst
    exact h n hn
  | post i c =>
    obtain ⟨-, p, r, hp, hr, hcase⟩ := step_post hst
    have hpc : s.pc = .batch n ∧ t.ring = r := by
      obtain ⟨-, -, -, -, rfl⟩ | ⟨-, rfl⟩ := hcase <;> exact ⟨hn, rfl⟩
    rw [hpc.2, post_cq hp hr, List.length_append]
    exact Nat.le_add_right_of_le (h n hpc.1)
  | consume =>
    obtain ⟨-, r, hr, rfl⟩ := step_consume hst
    obtain ⟨_, -, -, hcq, -⟩ := IoRing.consume_some hr
    show n ≤ r.cq.length
    rw [hcq]
    exact h n hn

theorem book_stop (now : Nat) (hs : Option (Bool × Nat)) (s : St) (c : Cqe Sqe) : (book L now hs s c).stop = s.stop := by
  unfold book bookConnect
  split
  · split <;> rfl
  · split <;> rfl

theorem step_stop {a : Act} (hst : step L s a = some t) (h : s.stop = true) : t.stop = true := by
  cases a with
  | sweep now =>
    obtain ⟨-, hstop, -⟩ := step_sweep hst
    rw [h] at hstop
    cases hstop
  | reap =>
    obtain ⟨-, ⟨-, rfl⟩ | ⟨-, rfl⟩⟩ := step_reap hst <;> exact h
  | cqe now hs =>
    obtain ⟨m, c, cs, hc⟩ := step_cqe hst
    rw [hc.stop, book_stop]
    exact h
  | submit =>
    obtain ⟨-, rfl⟩ := step_submit hst
    exact h
  | finish =>
    obtain ⟨-, -, rfl⟩ := step_finish hst
    show (cleanup s).stop = true
    rw [cleanup_eq]
    exact h
  | signal =>
    obtain ⟨-, rfl⟩ := step_signal hst
    rfl
  | post i c =>
    obtain ⟨-, p, r, -, -, hcase⟩ := step_post hst
    obtain ⟨-, -, -, -, rfl⟩ | ⟨-, rfl⟩ := hcase <;> exact h
  | consume =>
    obtain ⟨-, r, -, rfl⟩ := step_consume hst
    exact h

/-- what holds of a server from the signal on -/
structure Stopping (L : Setup) (s : St) : Prop where
  inv : Inv L s
  collected : Collected s
  stop : s.stop = true

theorem stopping_step (s : St) (a : Act) (t : St) (h : Stopping L s) (hst : step L s a = some t) : Stopping L t :=
  ⟨inv_step s a t h.inv hst, collected_step s a t h.collected hst, step_stop hst h.stop⟩

/-- the completions of the batch are not touched when others are posted behind them -/
theorem acceptsIn_post {n : Nat} {c : Cqe Sqe} (hle : n ≤ s.ring.cq.length) (hcq : t.ring.cq = s.ring.cq ++ [c]) :
    acceptsIn t n = acceptsIn s n := by
  unfold acceptsIn
  rw [hcq, List.take_append_of_le_length hle]

theorem handshakesLeft_congr (hpc : t.pc = s.pc) (h : ∀ n, s.pc = .batch n → acceptsIn t n = acceptsIn s n) :
    handshakesLeft t = handshakesLeft s := by
  unfold handshakesLeft
  rw [hpc]
  cases hb : s.pc with
  | batch n => exact h n hb
  | head => rfl
  | reap => rfl
  | done => rfl

theorem handshakesLeft_cqe {now : Nat} {hs : Option (Bool × Nat)} (h : Stopping L s)
    (hst : step L s (.cqe now hs) = some t) :
    handshakesLeft t + (handshakes s (.cqe now hs)).length ≤ handshakesLeft s := by
  obtain ⟨n, c, cs, hc⟩ := step_cqe hst
  have hshape := (h.inv.ops c.op (head_outstanding hc.cq)).shape
  have hcs : t.ring.cq = cs := by
    rw [hc.ring, IoRing.pushAll_cq]
    show s.ring.cq.tail = cs
    rw [hc.cq, List.tail_cons]
  have hone : (if accepts c then [c.res] else []).length ≤ if isAccept c then 1 else 0 := by
    by_cases ha : accepts c = true
    · have htype : c.op.userData.type = .accept := by
        unfold accepts at ha
        rw [Bool.and_eq_true, beq_iff_eq] at ha
        exact ha.1
      have hacc : isAccept c = true := beq_iff_eq.mpr (hshape.accept_iff.mpr htype)
      rw [if_pos ha, if_pos hacc]
      exact le_rfl
    · rw [if_neg ha]
      exact Nat.zero_le _
  unfold handshakesLeft handshakes
  rw [hc.pc, hc.pc', hc.cq]
  show acceptsIn t n + (if accepts c then [c.res] else []).length ≤ acceptsIn s (n + 1)
  unfold acceptsIn
  rw [hc.cq, hcs, List.take_succ_cons, List.countP_cons]
  omega

theorem handshakesLeft_step (s : St) (a : Act) (t : St) (h : Stopping L s) (hst : step L s a = some t) :
    handshakesLeft t + (handshakes s a).length ≤ handshakesLeft s := by
  cases a with
  | sweep now =>
    obtain ⟨-, hstop, -⟩ := step_sweep hst
    rw [h.stop] at hstop
    cases hstop
  | reap =>
    obtain ⟨hpc, ⟨-, rfl⟩ | ⟨-, rfl⟩⟩ := step_reap hst
    · exact Nat.zero_le _
    · have hle := acceptsIn_le h.inv (reaped L s)
      unfold handshakesLeft
      rw [hpc]
      exact hle
  | cqe now hs => exact handshakesLeft_cqe h hst
  | submit =>
    obtain ⟨-, rfl⟩ := step_submit hst
    exact Nat.zero_le _
  | finish =>
    obtain ⟨-, -, rfl⟩ := step_finish hst
    exact Nat.zero_le _
  | signal =>
    obtain ⟨-, rfl⟩ := step_signal hst
    exact le_rfl
  | post i c =>
    obtain ⟨-, p, r, hp, hr, hcase⟩ := step_post hst
    have hpc : t.pc = s.pc ∧ t.ring = r := by
      obtain ⟨-, -, -, -, rfl⟩ | ⟨-, rfl⟩ := hcase <;> exact ⟨rfl, rfl⟩
    have hcq : t.ring.cq = s.ring.cq ++ [⟨c, p.op⟩] := by
      rw [hpc.2]
      exact post_cq hp hr
    exact (handshakesLeft_congr hpc.1 fun n hn => acceptsIn_post (h.collected n hn) hcq).le
  | consume =>
    obtain ⟨-, r, hr, rfl⟩ := step_consume hst
    obtain ⟨_, -, -, hcq, -⟩ := IoRing.consume_some hr
    have hsame : ∀ n, acceptsIn (s.withRing r) n = acceptsIn s n := fun n =>
      congrArg (fun cq => (cq.take n).countP isAccept) hcq
    have hpc : (s.withRing r).pc = s.pc := rfl
    exact (handshakesLeft_congr hpc fun n _ => hsame n).le

theorem handshakesLeft_le (hi : Inv L s) : handshakesLeft s ≤ 1 := by
  unfold handshakesLeft
  cases s.pc with
  | batch n => exact acceptsIn_le hi n
  | head => exact Nat.zero_le 1
  | reap => exact le_rfl
  | done => exact Nat.zero_le 1

end

/-- **After the signal a server waits for at most one more handshake.**  Whatever connections arrive, however the kernel
orders its completions and whether or not it polls the submission queue: from any point of any run of a TCP server at
which the signal is set, at most one more accepted descriptor is asked for its handshake before `run_server` returns. -/
theorem one_handshake_left (L : Setup) (htcp : L.config.protocol = .tcp) (cap : Nat) (s : St)
    (h : Trans.Reach (step L) (start L cap) s) (hstop : s.stop = true) (as : List Act) (t : St)
    (hrun : Trans.runFrom (step L) s as = some t) : (Trans.observed (step L) handshakes s as).length ≤ 1 := by
  have hi := reach_inv htcp h
  have hcollected : Collected s := h.inv (I := Collected) (fun n hn => by cases hn) collected_step
  have hbound := (Trans.observed_rank handshakesLeft stopping_step handshakesLeft_step as s t
    ⟨hi, hcollected, hstop⟩ hrun).1
  have hle := handshakesLeft_le hi
  omega

/-- the signal arrives when the completion of an accept has been collected, and another one is posted behind it -/
theorem one_handshake_left_collected : defaultSetup.config.protocol = .tcp ∧
    ∃ s t, Trans.Reach (step defaultSetup) (start defaultSetup 256) s ∧ s.stop = true ∧
      Trans.runFrom (step defaultSetup) s [.cqe 0 (some (false, 10)), .submit, .post 0 (.plain 8), .finish] = some t ∧
      (Trans.observed (step defaultSetup) handshakes s
        [.cqe 0 (some (false, 10)), .submit, .post 0 (.plain 8), .finish]).length ≤ 1 := by
  have hrun : ((Trans.runFrom (step defaultSetup) (start defaultSetup 256)
      [.post 0 (.plain 7), .sweep 0, .reap, .signal]).any fun s => decide (s.stop = true) &&
        (Trans.runFrom (step defaultSetup) s
          [.cqe 0 (some (false, 10)), .submit, .post 0 (.plain 8), .finish]).isSome) = true := by decide +kernel
  obtain ⟨s, hs, hall⟩ := (Option.any_eq_true _ _).mp hrun
  rw [Bool.and_eq_true, decide_eq_true_eq] at hall
  obtain ⟨t, ht⟩ := Option.isSome_iff_exists.mp hall.2
  have hreach := Trans.Reach.of_runFrom _ hs
  exact ⟨rfl, s, t, hreach, hall.1, ht, one_handshake_left defaultSetup rfl 256 s hreach hall.1 _ t ht⟩

end Server
end UringPerf
