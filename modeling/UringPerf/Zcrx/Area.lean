import UringPerf.Zcrx.Pool

/-!
# The sizes of the area and of the refill queue

`run_server_zcrx` and `run_client_reverse_recv_zcrx` as loops over the buffer pool.

* `server_processes`, `client_processes`   both put a received buffer into the refill queue, unless it is full;
* `server_opening`, `client_opening`       both reach a state in which data can be delivered;
* `area_kept_iff`                          no buffer is lost exactly if the queue has an entry for each;
* `area_accounted`                         every buffer is accounted for, those dropped at a full queue included;
* `area_lost_default`                      the default sizes drop buffers.
-/

namespace UringPerf
namespace Zcrx
open Uring

/-! ## the two loops -/

def serverLoop (listenFd : Int) : Loop St := ⟨step listenFd, (·.rq), (·.ring.cq)⟩

def clientLoop (conn : Conn) : Loop ClientSt := ⟨clientStep conn, (·.rq), (·.ring.cq)⟩

/-- the completion of an accept is its only one -/
def AcceptsOnce (s : St) : Prop := ∀ c ∈ s.ring.cq, c.op = .accept → c.more = false

theorem accepts_once {listenFd : Int} (s : St) (a : Act) (t : St) (h : AcceptsOnce s)
    (hst : step listenFd s a = some t) : AcceptsOnce t := by
  unfold AcceptsOnce at h ⊢
  cases a with
  | wait =>
    obtain ⟨-, -, rfl⟩ := step_wait hst
    show ∀ c ∈ s.ring.submit.cq, _
    rw [IoRing.submit_cq]
    exact h
  | abort =>
    obtain ⟨-, rfl⟩ := step_abort hst
    exact h
  | cqe =>
    obtain ⟨c, cs, hc⟩ := step_cqe hst
    rw [hc.ring, IoRing.pushAll_cq]
    exact fun d hd => h d (List.mem_of_mem_tail hd)
  | advance =>
    obtain ⟨-, rfl⟩ := step_advance hst
    exact h
  | finish =>
    obtain ⟨-, o, rfl⟩ := step_finish hst
    exact h
  | signal =>
    obtain ⟨-, rfl⟩ := step_signal hst
    exact h
  | post i d =>
    obtain ⟨-, p, r, -, hr, ht⟩ := step_post hst
    have er : t.ring = r := by
      rcases ht with ⟨-, rfl⟩ | ⟨-, -, -, rfl⟩
      · rfl
      · rfl
    obtain ⟨q, rest, -, -, ha, -, hcq, -⟩ := IoRing.post_some hr
    rw [er, hcq]
    intro c hc hop
    rcases List.mem_append.mp hc with hc | hc
    · exact h c hc hop
    · rw [List.mem_singleton.mp hc] at hop ⊢
      replace hop : q.op = .accept := hop
      rw [hop] at ha
      simp only [Op.kind, Op.opcode, Opcode.kind, Kind.allows, Bool.and_eq_true, Bool.not_eq_true'] at ha
      exact ha.1.1.2
  | refill =>
    obtain ⟨-, -, rfl⟩ := step_refill hst
    exact h

theorem server_processes (listenFd : Int) : (serverLoop listenFd).Processes AcceptsOnce where
  inv := accepts_once
  post := by
    intro s i c t _ hst
    change step listenFd s (.post i c) = some t at hst
    obtain ⟨-, p, r, -, hr, ht⟩ := step_post hst
    obtain ⟨q, rest, -, -, -, -, hcq, -⟩ := IoRing.post_some hr
    rcases ht with ⟨-, rfl⟩ | ⟨-, -, -, rfl⟩
    · exact ⟨rfl, q.op, hcq⟩
    · exact ⟨rfl, q.op, hcq⟩
  cqe := by
    intro s t h hst
    change step listenFd s .cqe = some t at hst
    obtain ⟨c, cs, hc⟩ := step_cqe hst
    refine ⟨c, cs, hc.cq, ?_, ?_⟩
    · show t.ring.cq = cs
      rw [hc.ring, IoRing.pushAll_cq]
      show s.ring.cq.tail = cs
      rw [hc.cq]
      rfl
    · show t.rq = _
      rw [hc.rq]
      by_cases hop : c.op = .accept
      · have hm := h c (by rw [hc.cq]; exact List.mem_cons_self) hop
        rw [if_pos hop, refilled, isData, hm]
        rfl
      · exact if_neg hop
  refill := by
    intro s t _ hst
    change step listenFd s .refill = some t at hst
    obtain ⟨-, hne, rfl⟩ := step_refill hst
    exact ⟨hne, rfl, rfl⟩
  other := by
    intro s a t _ hst h1 h2 h3
    change step listenFd s a = some t at hst
    cases a with
    | wait =>
      obtain ⟨-, -, rfl⟩ := step_wait hst
      exact ⟨rfl, IoRing.submit_cq s.ring⟩
    | abort =>
      obtain ⟨-, rfl⟩ := step_abort hst
      exact ⟨rfl, rfl⟩
    | advance =>
      obtain ⟨-, rfl⟩ := step_advance hst
      exact ⟨rfl, rfl⟩
    | finish =>
      obtain ⟨-, o, rfl⟩ := step_finish hst
      exact ⟨rfl, rfl⟩
    | signal =>
      obtain ⟨-, rfl⟩ := step_signal hst
      exact ⟨rfl, rfl⟩
    | cqe => exact absurd rfl h2
    | post i c => exact absurd rfl (h1 i c)
    | refill => exact absurd rfl h3

theorem client_processes (conn : Conn) : (clientLoop conn).Processes fun _ => True where
  inv := fun _ _ _ _ _ => trivial
  post := by
    intro s i c t _ hst
    change clientStep conn s (.post i c) = some t at hst
    obtain ⟨r, hr, rfl⟩ := client_post hst
    obtain ⟨q, rest, -, -, -, -, hcq, -⟩ := IoRing.post_some hr
    exact ⟨rfl, q.op, hcq⟩
  cqe := by
    intro s t _ hst
    change clientStep conn s .cqe = some t at hst
    obtain ⟨c, cs, hcq, hrq, hr⟩ := client_cqe hst
    refine ⟨c, cs, hcq, ?_, hrq⟩
    show t.ring.cq = cs
    rw [hr, IoRing.pushAll_cq]
    show s.ring.cq.tail = cs
    rw [hcq]
    rfl
  refill := by
    intro s t _ hst
    change clientStep conn s .refill = some t at hst
    obtain ⟨hne, rfl⟩ := client_refill hst
    exact ⟨hne, rfl, rfl⟩
  other := by
    intro s a t _ hst h1 h2 h3
    change clientStep conn s a = some t at hst
    cases a with
    | cqe => exact absurd rfl h2
    | post i c => exact absurd rfl (h1 i c)
    | refill => exact absurd rfl h3
    | wait =>
      simp only [clientStep] at hst
      split at hst
      · cases hst
        exact ⟨rfl, IoRing.submit_cq s.ring⟩
      · cases hst
    | _ =>
      simp only [clientStep] at hst
      split at hst <;> cases hst
      exact ⟨rfl, rfl⟩

/-! ## both can be flooded -/

/-- a receive in the kernel may post a data completion and stays there -/
theorem post_chunk {r : IoRing Op} {conn : Conn} {c : Completion} (hk : r.kern[0]? = some ⟨.recv conn, false⟩)
    (hd : isData c = true) (hn : c.notif = false) : ∃ r', r.post Op.kind 0 c = some r' ∧
      r'.kern[0]? = some ⟨.recv conn, false⟩ ∧ r'.cq = r.cq ++ [⟨c, .recv conn⟩] := by
  unfold isData at hd
  rw [Bool.and_eq_true, decide_eq_true_eq] at hd
  have ha : Kind.allows (Op.kind (.recv conn)) false c = true := by
    simp only [Op.kind, Op.opcode, Opcode.kind, Kind.allows, hn, decide_eq_true hd.2, Bool.or_true, Bool.not_false,
      Bool.and_self]
  have hs : Kind.stays (Op.kind (.recv conn)) false c = some false := if_pos hd.1
  unfold IoRing.post
  rw [hk]
  dsimp only
  rw [if_pos ha, hs]
  refine ⟨_, rfl, ?_, rfl⟩
  show (r.kern.set 0 ⟨.recv conn, false⟩)[0]? = _
  rw [List.getElem?_set_self]
  exact (List.getElem?_eq_some_iff.mp hk).1

/-- processing completions, with a receive first in the kernel -/
def Receiving (s : St) : Prop :=
  s.pc = .batch ∧ s.ring.cq = [] ∧ ∃ conn, s.ring.kern[0]? = some ⟨.recv conn, false⟩

theorem server_streams (listenFd : Int) : (serverLoop listenFd).Streams Receiving where
  cq := fun s h => h.2.1
  chunk := by
    intro s c ⟨hpc, hcq, conn, hk⟩ hd hn
    obtain ⟨r, hr, hk', hcq'⟩ := post_chunk hk hd hn
    have hu : step listenFd s (.post 0 c) = some { s with ring := r } := by
      simp only [step, kernelPost, hk, hr, reduceCtorEq, false_and, if_false]
      rw [if_neg (by rw [hpc]; exact Pc.noConfusion)]
    rw [hcq, List.nil_append] at hcq'
    have hst : ∃ t, step listenFd { s with ring := r } .cqe = some t := by
      simp only [step, hpc, hcq']
      exact ⟨_, rfl⟩
    obtain ⟨t, ht⟩ := hst
    refine ⟨_, t, hu, ht, ?_⟩
    obtain ⟨d, ds, hstep⟩ := step_cqe ht
    obtain ⟨rfl, rfl⟩ := List.cons.inj (hcq'.symm.trans hstep.cq)
    refine ⟨hstep.pc', ?_, conn, ?_⟩
    · rw [hstep.ring, IoRing.pushAll_cq]
      show r.cq.tail = []
      rw [hcq']
      rfl
    · rw [hstep.ring, IoRing.pushAll_kern]
      exact hk'

def ClientReceiving (s : ClientSt) : Prop :=
  s.pc = .batch ∧ s.ring.cq = [] ∧ ∃ conn, s.ring.kern[0]? = some ⟨.recv conn, false⟩

theorem client_streams (conn : Conn) : (clientLoop conn).Streams ClientReceiving where
  cq := fun s h => h.2.1
  chunk := by
    intro s c ⟨hpc, hcq, conn', hk⟩ hd hn
    obtain ⟨r, hr, hk', hcq'⟩ := post_chunk hk hd hn
    have hu : clientStep conn s (.post 0 c) = some { s with ring := r } := by
      simp only [clientStep, hr, Option.map_some]
      rw [if_neg (by rw [hpc]; exact Pc.noConfusion)]
    rw [hcq, List.nil_append] at hcq'
    have hm : c.more = true ∧ 0 < c.res := by
      unfold isData at hd
      rwa [Bool.and_eq_true, decide_eq_true_eq] at hd
    have ht : clientStep conn { s with ring := r } .cqe = some { s with
        ring := r.seen, stats := countChunk s.stats c.res, rq := s.rq.returnBuffer (offset c) c.res } := by
      simp only [clientStep, hpc, hcq', onClientRx, hm.1, hm.2, Bool.true_eq_false, if_false, if_true]
    refine ⟨_, _, hu, ht, hpc, ?_, conn', hk'⟩
    show r.cq.tail = []
    rw [hcq']
    rfl

/-- the server begins with an accept in the kernel -/
theorem start_ring (rq : RefillQueue) {cap : Nat} (hc : 0 < cap) :
    (start cap rq).ring.sq = [] ∧ (start cap rq).ring.kern = [⟨.accept, false⟩] ∧
      (start cap rq).ring.cq = [] ∧ (start cap rq).ring.cap = cap ∧ (start cap rq).ring.sqpoll = false := by
  have hp := IoRing.push_of_lt (IoRing.init cap false) Op.accept hc
  have hs := IoRing.submit_off ((IoRing.init cap false).push Op.accept).2 (IoRing.push_sqpoll _ _)
  rw [hp.2.1, IoRing.push_kern] at hs
  refine ⟨hs.1, hs.2, ?_, ?_, ?_⟩
  · exact (IoRing.submit_cq _).trans (IoRing.push_cq _ _)
  · exact (IoRing.submit_cap _).trans (IoRing.push_cap _ _)
  · exact (IoRing.submit_sqpoll _).trans (IoRing.push_sqpoll _ _)

/-- the server accepts one connection and submits its receive -/
theorem server_opening (listenFd : Int) (rq : RefillQueue) {cap : Nat} (hc : 2 ≤ cap) :
    ∃ fd l, Trans.runFrom (step listenFd) (start cap rq)
        [.post 0 (.plain fd), .wait, .cqe, .advance, .wait] = some l ∧ Receiving l ∧ l.rq = rq := by
  obtain ⟨hsq, hk, hcq, hcap, hoff⟩ := start_ring rq (Nat.lt_of_lt_of_le Nat.two_pos hc)
  let fd : Int := listenFd.natAbs + 1
  have hfd : 0 ≤ fd ∧ fd ≠ listenFd := by omega
  -- the accept is completed
  have hk0 : (start cap rq).ring.kern[0]? = some ⟨.accept, false⟩ := by rw [hk]; rfl
  obtain ⟨r, hr, rk, rcq, rsq, rcap, roff, -⟩ := IoRing.post_ok Op.kind (.plain fd) hk0 rfl rfl
  have h1 : step listenFd (start cap rq) (.post 0 (.plain fd)) = some { start cap rq with
      ring := r
      gen := Function.update (start cap rq).gen fd ((start cap rq).gen fd + 1)
      isOpen := Function.update (start cap rq).isOpen fd true } := by
    show kernelPost listenFd (start cap rq) 0 (.plain fd) = _
    unfold kernelPost
    rw [hk0, hr]
    dsimp only
    rw [if_pos ⟨rfl, hfd.1⟩, if_pos ⟨rfl, hfd.2⟩]
    rfl
  rw [hk] at rk
  rw [hcq] at rcq
  generalize Function.update (start cap rq).gen fd ((start cap rq).gen fd + 1) = g at h1
  generalize Function.update (start cap rq).isOpen fd true = o at h1
  -- and processed
  have hro : r.sqpoll = false := roff.trans hoff
  have hrs : r.submit.cq = [⟨.plain fd, .accept⟩] := (IoRing.submit_cq r).trans rcq
  have h3 : ∃ t, step listenFd { start cap rq with ring := r.submit, gen := g, isOpen := o, pc := .batch } .cqe =
      some t := by
    simp only [step, hrs]
    exact ⟨_, rfl⟩
  obtain ⟨t, h3⟩ := h3
  obtain ⟨c, cs, ht⟩ := step_cqe h3
  obtain ⟨rfl, rfl⟩ := List.cons.inj (hrs.symm.trans ht.cq)
  -- two entries fit
  have hsub := IoRing.submit_off r hro
  have hq : t.ring = r.submit.seen.pushAll [.recv ⟨fd, g fd⟩, .accept] := ht.ring
  have hfit := IoRing.pushAll_fits r.submit.seen [Op.recv ⟨fd, g fd⟩, .accept] (by
    show r.submit.sq.length + 2 ≤ r.submit.cap
    rw [hsub.1, IoRing.submit_cap, rcap, hcap]
    exact hc)
  have htcq : t.ring.cq = [] := by
    rw [hq, IoRing.pushAll_cq]
    show r.submit.cq.tail = []
    rw [hrs]
    rfl
  have htk : t.ring.kern = [] := by
    rw [hq, IoRing.pushAll_kern]
    show r.submit.kern = []
    rw [hsub.2, rk, rsq, hsq]
    rfl
  have htoff : t.ring.sqpoll = false := by
    rw [hq, IoRing.pushAll_sqpoll]
    exact (IoRing.submit_sqpoll r).trans hro
  refine ⟨fd, { t with ring := t.ring.submit, pc := .batch }, ?_, ⟨rfl, ?_, ⟨fd, g fd⟩, ?_⟩, ht.rq⟩
  · have h2 : step listenFd { start cap rq with ring := r, gen := g, isOpen := o } .wait =
        some { start cap rq with ring := r.submit, gen := g, isOpen := o, pc := .batch } := rfl
    have h4 : step listenFd t .advance = some { t with pc := .head } := if_pos ⟨ht.pc', htcq⟩
    have h5 : step listenFd { t with pc := .head } .wait = some { t with ring := t.ring.submit, pc := .batch } :=
      if_pos ⟨rfl, ht.stop⟩
    rw [Trans.runFrom_cons, h1, Option.bind_some, Trans.runFrom_cons, h2, Option.bind_some, Trans.runFrom_cons,
      h3, Option.bind_some, Trans.runFrom_cons, h4, Option.bind_some, Trans.runFrom_cons, h5]
    rfl
  · exact (IoRing.submit_cq _).trans htcq
  · show t.ring.submit.kern[0]? = _
    have hsq' : t.ring.sq = [.recv ⟨fd, g fd⟩, .accept] := by
      rw [hq, hfit.1]
      show r.submit.sq ++ _ = _
      rw [hsub.1]
      rfl
    rw [(IoRing.submit_off t.ring htoff).2, htk, hsq']
    rfl

theorem client_opening (conn : Conn) (rq : RefillQueue) {cap : Nat} (hc : 0 < cap) :
    ∃ l, clientStep conn (clientStart cap rq conn) .wait = some l ∧ ClientReceiving l ∧ l.rq = rq := by
  refine ⟨{ clientStart cap rq conn with ring := (clientStart cap rq conn).ring.submit, pc := .batch }, rfl,
    ⟨rfl, ?_, conn, ?_⟩, rfl⟩
  · show ((IoRing.init cap false).push (Op.recv conn)).2.submit.submit.cq = []
    rw [IoRing.submit_cq, IoRing.submit_cq, IoRing.push_cq]
    rfl
  · show ((IoRing.init cap false).push (Op.recv conn)).2.submit.submit.kern[0]? = _
    have hp := IoRing.push_of_lt (IoRing.init cap false) (Op.recv conn) hc
    have h1 := IoRing.submit_off ((IoRing.init cap false).push (Op.recv conn)).2 (IoRing.push_sqpoll _ _)
    rw [hp.2.1, IoRing.push_kern] at h1
    have h2 := IoRing.submit_off ((IoRing.init cap false).push (Op.recv conn)).2.submit
      ((IoRing.submit_sqpoll _).trans (IoRing.push_sqpoll _ _))
    rw [h2.2, h1.2, h1.1]
    rfl

/-! ## the main result -/

section
variable {entries : UInt32} {token : UInt64} {page cap n : Nat}

theorem server_fresh (listenFd : Int) (entries v : UInt32) (token : UInt64) (rqes : UInt32 → Rqe) (hc : 0 < cap) :
    (serverLoop listenFd).Fresh AcceptsOnce token entries (start cap (freshQueue entries v token rqes)) := by
  have hcq := (start_ring (freshQueue entries v token rqes) hc).2.2.1
  refine ⟨?_, hcq, v, rqes, rfl⟩
  intro c hmem
  rw [hcq] at hmem
  exact absurd hmem List.not_mem_nil

theorem client_fresh (conn : Conn) (entries v : UInt32) (token : UInt64) (rqes : UInt32 → Rqe) (cap : Nat) :
    (clientLoop conn).Fresh (fun _ => True) token entries
      (clientStart cap (freshQueue entries v token rqes) conn) := by
  refine ⟨trivial, ?_, v, rqes, rfl⟩
  show ((IoRing.init cap false).push (Op.recv conn)).2.submit.cq = []
  rw [IoRing.submit_cq, IoRing.push_cq]
  rfl

theorem server_lost (listenFd : Int) (v : UInt32) (rqes : UInt32 → Rqe) (hp : 0 < page)
    (hk : ∃ k ≤ 31, entries.toNat = 2^k) (ht : token.toNat % 2^48 = 0) (hc : 2 ≤ cap)
    (hn : n * page ≤ 2^48) (hlt : entries.toNat < n) :
    ∃ s, Trans.Reach ((serverLoop listenFd).pooled page)
        ⟨start cap (freshQueue entries v token rqes), List.range n⟩ s ∧
      (serverLoop listenFd).Lost page n s entries.toNat := by
  obtain ⟨fd, l, hrun, hg, hrq⟩ := server_opening listenFd (freshQueue entries v token rqes) hc
  have hplain : ∀ a ∈ [Act.post 0 (.plain fd), .wait, .cqe, .advance, .wait], a.plain = true := by
    intro a ha
    fin_cases ha <;> rfl
  exact Loop.Streams.lost (server_processes listenFd) (server_streams listenFd) hp hk ht hn hlt
    (server_fresh listenFd entries v token rqes (Nat.lt_of_lt_of_le Nat.two_pos hc))
    (Loop.reach_plain _ hplain hrun) hg hrq

theorem client_lost (conn : Conn) (v : UInt32) (rqes : UInt32 → Rqe) (hp : 0 < page)
    (hk : ∃ k ≤ 31, entries.toNat = 2^k) (ht : token.toNat % 2^48 = 0) (hc : 2 ≤ cap)
    (hn : n * page ≤ 2^48) (hlt : entries.toNat < n) :
    ∃ s, Trans.Reach ((clientLoop conn).pooled page)
        ⟨clientStart cap (freshQueue entries v token rqes) conn, List.range n⟩ s ∧
      (clientLoop conn).Lost page n s entries.toNat := by
  obtain ⟨l, hst, hg, hrq⟩ :=
    client_opening conn (freshQueue entries v token rqes) (Nat.lt_of_lt_of_le Nat.two_pos hc)
  have hst' : (clientLoop conn).step (clientStart cap (freshQueue entries v token rqes) conn) .wait = some l := hst
  have hr := Trans.Reach.refl.tail (Loop.pooled_plain page (List.range n) rfl hst')
  exact Loop.Streams.lost (client_processes conn) (client_streams conn) hp hk ht hn hlt
    (client_fresh conn entries v token rqes cap) hr hg hrq

end

/-- **No buffer is ever lost exactly if the refill queue has an entry for every buffer of the area**, for both
loops, every size of the area, every page size and every number of entries.  The kernel may read the queue as
late as it likes. -/
theorem area_kept_iff (cfg : Config) (page cap : Nat) (entries v : UInt32) (token : UInt64)
    (rqes : UInt32 → Rqe) (listenFd : Int) (conn : Conn) (hp : 0 < page) (ha : cfg.zcrxAreaSize ≤ 2^48)
    (he : cfg.zcrxRqEntries = entries.toNat) (hk : ∃ k ≤ 31, entries.toNat = 2^k)
    (ht : token.toNat % 2^48 = 0) (hc : 2 ≤ cap) :
    ((serverLoop listenFd).Keeps page (cfg.zcrxAreaSize / page)
        ⟨start cap (freshQueue entries v token rqes), List.range (cfg.zcrxAreaSize / page)⟩ ↔
      cfg.zcrxAreaSize / page ≤ cfg.zcrxRqEntries) ∧
    ((clientLoop conn).Keeps page (cfg.zcrxAreaSize / page)
        ⟨clientStart cap (freshQueue entries v token rqes) conn, List.range (cfg.zcrxAreaSize / page)⟩ ↔
      cfg.zcrxAreaSize / page ≤ cfg.zcrxRqEntries) := by
  have hn : cfg.zcrxAreaSize / page * page ≤ 2^48 := le_trans (Nat.div_mul_le_self _ _) ha
  have hc0 : 0 < cap := Nat.lt_of_lt_of_le Nat.two_pos hc
  rw [he]
  constructor
  · constructor
    · intro hkeep
      by_contra hlt
      obtain ⟨s, hs, hl⟩ := server_lost listenFd v rqes hp hk ht hc hn (Nat.not_le.mp hlt)
      exact hl.not_placed (hkeep s hs).1
    · intro hle
      exact (server_processes listenFd).keeps hle hk ht (server_fresh listenFd entries v token rqes hc0)
  · constructor
    · intro hkeep
      by_contra hlt
      obtain ⟨s, hs, hl⟩ := client_lost conn v rqes hp hk ht hc hn (Nat.not_le.mp hlt)
      exact hl.not_placed (hkeep s hs).1
    · intro hle
      exact (client_processes conn).keeps hle hk ht (client_fresh conn entries v token rqes cap)

/-- **Every buffer of the area is accounted for.**  In every run of either loop, for every size of the area and of the
queue and however late the kernel reads the queue: the buffer of a data completion goes into the refill queue when the
completion is processed, unless the queue is full, and then it is dropped; each buffer is free, in an unprocessed
completion, in the queue or dropped, in one of these and once.  None is ever dropped exactly if the queue has an entry
for every buffer. -/
theorem area_accounted (cfg : Config) (page cap : Nat) (entries v : UInt32) (token : UInt64)
    (rqes : UInt32 → Rqe) (listenFd : Int) (conn : Conn) (hp : 0 < page) (ha : cfg.zcrxAreaSize ≤ 2^48)
    (he : cfg.zcrxRqEntries = entries.toNat) (hk : ∃ k ≤ 31, entries.toNat = 2^k)
    (ht : token.toNat % 2^48 = 0) (hc : 2 ≤ cap) :
    ((serverLoop listenFd).Accounted page (cfg.zcrxAreaSize / page)
        ⟨start cap (freshQueue entries v token rqes), List.range (cfg.zcrxAreaSize / page)⟩ ∧
      ((serverLoop listenFd).Keeps page (cfg.zcrxAreaSize / page)
          ⟨start cap (freshQueue entries v token rqes), List.range (cfg.zcrxAreaSize / page)⟩ ↔
        cfg.zcrxAreaSize / page ≤ cfg.zcrxRqEntries)) ∧
    (clientLoop conn).Accounted page (cfg.zcrxAreaSize / page)
        ⟨clientStart cap (freshQueue entries v token rqes) conn, List.range (cfg.zcrxAreaSize / page)⟩ ∧
      ((clientLoop conn).Keeps page (cfg.zcrxAreaSize / page)
          ⟨clientStart cap (freshQueue entries v token rqes) conn, List.range (cfg.zcrxAreaSize / page)⟩ ↔
        cfg.zcrxAreaSize / page ≤ cfg.zcrxRqEntries) := by
  obtain ⟨hserver, hclient⟩ := area_kept_iff cfg page cap entries v token rqes listenFd conn hp ha he hk ht hc
  have hc0 : 0 < cap := Nat.lt_of_lt_of_le Nat.two_pos hc
  refine ⟨⟨?_, hserver⟩, ?_, hclient⟩
  · exact (server_processes listenFd).accounted hk ht (server_fresh listenFd entries v token rqes hc0)
  · exact (client_processes conn).accounted hk ht (client_fresh conn entries v token rqes cap)

/-- an area of two buffers and a queue of one entry: both are delivered, and the second is dropped -/
def dropRun : List Act :=
  [.post 0 (.plain 7), .wait, .cqe, .advance, .wait, .post 0 (Loop.chunkAt 4096 0), .cqe,
    .post 0 (Loop.chunkAt 4096 1), .cqe]

theorem area_accounted_drop : (∃ k ≤ 31, (1 : UInt32).toNat = 2^k) ∧
    ∃ s, Trans.runFrom ((serverLoop 3).pooled 4096)
        ⟨start 8192 (freshQueue 1 0 0 fun _ => ⟨0, 0⟩), List.range 2⟩ dropRun = some s ∧
      (serverLoop 3).waiting 4096 s = [0] ∧ ((serverLoop 3).places 4096 s ++ [1]).Perm (List.range 2) := by
  have hk : ∃ k ≤ 31, (1 : UInt32).toNat = 2^k := ⟨0, by decide, rfl⟩
  have hrun : ((Trans.runFrom ((serverLoop 3).pooled 4096)
      ⟨start 8192 (freshQueue 1 0 0 fun _ => ⟨0, 0⟩), List.range 2⟩ dropRun).any fun s =>
        decide ((serverLoop 3).waiting 4096 s = [0])) = true := by decide +kernel
  have hdrop : Trans.observed ((serverLoop 3).pooled 4096) ((serverLoop 3).dropped 4096)
      ⟨start 8192 (freshQueue 1 0 0 fun _ => ⟨0, 0⟩), List.range 2⟩ dropRun = [1] := by decide +kernel
  obtain ⟨s, hs, hw⟩ := (Option.any_eq_true _ _).mp hrun
  obtain ⟨⟨hserver, -⟩, -⟩ := area_accounted { zcrxAreaSize := 8192, zcrxRqEntries := 1 } 4096 8192 1 0 0
    (fun _ => ⟨0, 0⟩) 3 ⟨4, 0⟩ (by decide) (by decide) rfl hk rfl (by decide)
  have haccount : (serverLoop 3).Accounted 4096 2
      ⟨start 8192 (freshQueue 1 0 0 fun _ => ⟨0, 0⟩), List.range 2⟩ := hserver
  have hperm := (haccount dropRun s hs).1
  rw [hdrop] at hperm
  exact ⟨hk, s, hs, of_decide_eq_true hw, hperm⟩

/-- **The default sizes drop buffers**: 65536 buffers of 4096 bytes, 8192 entries.  Buffer 8192, the last of the
first 8193 delivered ones, is neither free nor in a completion nor in the refill queue. -/
theorem area_lost_default : ∃ cfg, parseArgs [.server, .zcrx, .zcrxIf "eth0"] = .ok cfg ∧
    cfg.zcrxRqEntries = (8192 : UInt32).toNat ∧
    (∃ s, Trans.Reach ((serverLoop 3).pooled 4096) ⟨start cfg.zcrxCqEntries (freshQueue 8192 0 0 fun _ => ⟨0, 0⟩),
        List.range (cfg.zcrxAreaSize / 4096)⟩ s ∧
      (serverLoop 3).Lost 4096 (cfg.zcrxAreaSize / 4096) s 8192) ∧
    ∃ s, Trans.Reach ((clientLoop ⟨4, 0⟩).pooled 4096)
        ⟨clientStart cfg.zcrxCqEntries (freshQueue 8192 0 0 fun _ => ⟨0, 0⟩) ⟨4, 0⟩,
          List.range (cfg.zcrxAreaSize / 4096)⟩ s ∧
      (clientLoop ⟨4, 0⟩).Lost 4096 (cfg.zcrxAreaSize / 4096) s 8192 := by
  have hk : ∃ k ≤ 31, (8192 : UInt32).toNat = 2^k := ⟨13, by decide, rfl⟩
  refine ⟨{ mode := .server, useZcrx := true, zcrxIfname := "eth0" }, by rfl, rfl, ?_, ?_⟩
  · exact server_lost 3 0 (fun _ => ⟨0, 0⟩) (by decide) hk rfl (by decide) (by decide) (by decide)
  · exact client_lost ⟨4, 0⟩ 0 (fun _ => ⟨0, 0⟩) (by decide) hk rfl (by decide) (by decide) (by decide)

end Zcrx
end UringPerf
