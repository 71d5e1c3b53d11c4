import UringPerf.Base.Feed
import UringPerf.Client.Model
import UringPerf.Server.Preserve

/-!
# When a TCP connection ends: multishot against single-shot receives

The peer sends `n` bytes and closes.  The kernel delivers them as a sequence of completions, and the
receive branches of `run_server` and of `run_client_reverse_recv` process it until they end the
connection.

* `Delivers k n cs`     `cs` delivers `n` bytes and the end of the stream to an operation of kind `k`;
* `msEnds`, `onceEnds`  the completions on which the two branches end the connection;
* `server_spec`, `client_spec`   the code's branches do exactly this, and count the received bytes;
* `Agrees`              the connection ends on a completion that means its end, with all bytes counted;
* `agrees_iff`          the single-shot branches always agree; the multishot branches do exactly if no
                        completion that terminates the operation carries data or asks to try again.
-/

namespace UringPerf
namespace Recv
open Uring

/-! ## what the kernel delivers -/

/-- the results that mean the end of a connection -/
def properEnd (res : Int) : Bool := res == 0 || (decide (res < 0) && !isAgain res && res != -ENOBUFS)

inductive Delivers (k : Kind) : Nat → List Completion → Prop where
  | eof {c : Completion} (ha : k.allows false c = true) (hm : c.more = false) (hr : c.res = 0) :
    Delivers k 0 [c]
  | chunk {c : Completion} {n : Nat} {cs : List Completion} (ha : k.allows false c = true)
    (hr : 0 < c.res) (hb : k = .multishot → c.buffer.isSome = true) (h : Delivers k n cs) :
    Delivers k (c.res.toNat + n) (c :: cs)
  | again {c : Completion} {n : Nat} {cs : List Completion} (ha : k.allows false c = true)
    (hr : isAgain c.res = true ∨ (k = .multishot ∧ c.res = -ENOBUFS)) (h : Delivers k n cs) :
    Delivers k n (c :: cs)

/-- no completion that terminates the operation carries data or asks to try again -/
def NoEarlyEnd (cs : List Completion) : Prop := ∀ c ∈ cs, c.more = false → isRepeat c.res = false

/-! ## the two ways of ending -/

def msEnds (c : Completion) : Bool := !c.more && c.res != -ENOBUFS

def msCounts (c : Completion) : Nat := if 0 < c.res ∧ c.buffer.isSome = true then c.res.toNat else 0

def onceEnds (c : Completion) : Bool := !isRepeat c.res

def onceCounts (c : Completion) : Nat := if 0 < c.res then c.res.toNat else 0

/-- the first completion in `ends` means the end, and `n` bytes are counted up to it -/
def Whole (ends : Completion → Bool) (counts : Completion → Nat) (cs : List Completion) (n : Nat) : Prop :=
  ∃ c, cs.find? ends = some c ∧ properEnd c.res = true ∧ ((upTo ends cs).map counts).sum = n

section
variable {ends : Completion → Bool} {counts : Completion → Nat} {c : Completion}
  {cs : List Completion} {n : Nat}

theorem whole_stop (he : ends c = true) :
    Whole ends counts (c :: cs) n ↔ properEnd c.res = true ∧ counts c = n := by
  unfold Whole upTo
  rw [List.find?_cons, he]
  constructor
  · rintro ⟨d, hd, h1, h2⟩
    cases hd
    exact ⟨h1, by simpa using h2⟩
  · rintro ⟨h1, h2⟩
    exact ⟨c, rfl, h1, by simpa using h2⟩

theorem whole_next (he : ends c = false) :
    Whole ends counts (c :: cs) (counts c + n) ↔ Whole ends counts cs n := by
  unfold Whole
  rw [List.find?_cons, he, upTo, he]
  simp only [Bool.false_eq_true, if_false, List.map_cons, List.sum_cons, Nat.add_left_cancel_iff]

end

theorem properEnd_repeat {res : Int} (h : isRepeat res = true) : properEnd res = false := by
  unfold isRepeat at h
  unfold properEnd
  rcases Bool.or_eq_true_iff.mp h with h | h
  · have h0 : 0 < res := of_decide_eq_true h
    rw [beq_eq_false_iff_ne.mpr (by omega), decide_eq_false (by omega)]
    rfl
  · have h0 : res ≠ 0 := by
      intro e
      rw [e] at h
      cases h
    rw [beq_eq_false_iff_ne.mpr h0, h, Bool.not_true, Bool.and_false]
    rfl

theorem isAgain_neg {res : Int} (h : isAgain res = true) : res < 0 := by
  unfold isAgain at h
  rcases Bool.or_eq_true_iff.mp h with h | h
  · rw [beq_iff_eq.mp h]
    decide
  · rw [beq_iff_eq.mp h]
    decide

theorem repeat_of_pos {res : Int} (h : 0 < res) : isRepeat res = true := by
  unfold isRepeat
  rw [decide_eq_true h, Bool.true_or]

theorem repeat_of_again {res : Int} (h : isAgain res = true) : isRepeat res = true := by
  unfold isRepeat
  rw [h, Bool.or_true]

theorem not_repeat_enobufs : isRepeat (-ENOBUFS) = false := by decide

theorem noEarlyEnd_cons (c : Completion) (cs : List Completion) :
    NoEarlyEnd (c :: cs) ↔ (c.more = false → isRepeat c.res = false) ∧ NoEarlyEnd cs :=
  List.forall_mem_cons

/-- a completion that keeps the operation, or one that says there was no buffer, changes nothing -/
theorem whole_ms (n : Nat) (cs : List Completion) (h : Delivers .multishot n cs) :
    Whole msEnds msCounts cs n ↔ NoEarlyEnd cs := by
  induction h with
  | @eof c ha hm hr =>
    have he : msEnds c = true := by unfold msEnds; rw [hm, hr]; rfl
    rw [whole_stop he, hr, noEarlyEnd_cons]
    refine iff_of_true ⟨rfl, ?_⟩ ⟨fun _ => by rw [hr]; rfl, fun c hc => absurd hc List.not_mem_nil⟩
    unfold msCounts
    rw [hr]
    rfl
  | @chunk c n cs ha hr hb h ih =>
    have hrep := repeat_of_pos hr
    have hcount : msCounts c = c.res.toNat := if_pos ⟨hr, hb rfl⟩
    rw [noEarlyEnd_cons]
    cases hm : c.more with
    | true =>
      have he : msEnds c = false := by unfold msEnds; rw [hm]; rfl
      rw [← hcount, whole_next he, ih]
      exact ⟨fun h => ⟨nofun, h⟩, fun h => h.2⟩
    | false =>
      have hne : c.res ≠ -ENOBUFS := by unfold ENOBUFS; omega
      have he : msEnds c = true := by
        unfold msEnds
        rw [hm, bne_iff_ne.mpr hne]
        rfl
      rw [whole_stop he, properEnd_repeat hrep]
      exact iff_of_false (fun h => Bool.false_ne_true h.1)
        (fun h => by rw [hrep] at h; exact absurd (h.1 rfl) Bool.noConfusion)
  | @again c n cs ha hr h ih =>
    have hneg : ¬ 0 < c.res := by
      rcases hr with hr | hr
      · have := isAgain_neg hr
        omega
      · rw [hr.2]
        decide
    have hcount : msCounts c = 0 := if_neg (fun h => hneg h.1)
    rw [noEarlyEnd_cons]
    by_cases he : msEnds c = true
    · have hc : c.more = false ∧ c.res ≠ -ENOBUFS := by
        unfold msEnds at he
        rw [Bool.and_eq_true, Bool.not_eq_true', bne_iff_ne] at he
        exact he
      have hag : isRepeat c.res = true := by
        rcases hr with hr | hr
        · exact repeat_of_again hr
        · exact absurd hr.2 hc.2
      rw [whole_stop he, properEnd_repeat hag]
      exact iff_of_false (fun h => Bool.false_ne_true h.1)
        (fun h => by rw [hag] at h; exact absurd (h.1 hc.1) Bool.noConfusion)
    · rw [Bool.not_eq_true] at he
      have h0 : Whole msEnds msCounts (c :: cs) (msCounts c + n) ↔ _ := whole_next he
      rw [hcount, Nat.zero_add] at h0
      rw [h0, ih]
      refine ⟨fun h => ⟨fun hm => ?_, h⟩, fun h => h.2⟩
      unfold msEnds at he
      rw [hm, Bool.not_false, Bool.true_and, bne_eq_false_iff_eq] at he
      rw [he]
      exact not_repeat_enobufs

/-- the single-shot branch goes on exactly while there is something to repeat -/
theorem whole_once (n : Nat) (cs : List Completion) (h : Delivers .once n cs) :
    Whole onceEnds onceCounts cs n := by
  induction h with
  | @eof c ha hm hr =>
    have he : onceEnds c = true := by unfold onceEnds; rw [hr]; rfl
    rw [whole_stop he, hr]
    refine ⟨rfl, ?_⟩
    unfold onceCounts
    rw [hr]
    rfl
  | @chunk c n cs ha hr hb h ih =>
    have he : onceEnds c = false := by unfold onceEnds; rw [repeat_of_pos hr]; rfl
    have hcount : onceCounts c = c.res.toNat := if_pos hr
    rw [← hcount, whole_next he]
    exact ih
  | @again c n cs ha hr h ih =>
    have hag : isAgain c.res = true := by
      rcases hr with hr | hr
      · exact hr
      · cases hr.1
    have he : onceEnds c = false := by unfold onceEnds; rw [repeat_of_again hag]; rfl
    have hneg := isAgain_neg hag
    have hcount : onceCounts c = 0 := if_neg (by omega)
    have h0 : Whole onceEnds onceCounts (c :: cs) (onceCounts c + n) ↔ _ := whole_next he
    rw [hcount, Nat.zero_add] at h0
    exact h0.mpr ih

/-! ## the receive branches of the server -/

section
variable (L : Server.Setup) (ctx : IOContext)

/-- the branch of `run_server` for the completions of a receive with the context `ctx` -/
def serverReceiver : Receiver Server.St where
  handle := fun s c =>
    if L.useMultishot then Server.onRecvMultishot L s ctx c else Server.onRecv L s ctx c
  closed := fun s => (s.sessions.lookup ctx.fd).isNone
  bytes := fun s => s.stats.bytesTransferred

variable {L ctx}

theorem errorIfNeg_bytes (s : Server.St) (res : Int) :
    (s.errorIfNeg res).stats.bytesTransferred = s.stats.bytesTransferred := by
  unfold Server.St.errorIfNeg
  split <;> rfl

theorem errorIfNeg_sessions (s : Server.St) (res : Int) :
    (s.errorIfNeg res).sessions = s.sessions := (Server.adds_errorIfNeg s res).sessions

theorem takeBuffer_bytes (s : Server.St) (c : Completion) :
    (s.takeBuffer L c).stats.bytesTransferred = s.stats.bytesTransferred + msCounts c := by
  unfold Server.St.takeBuffer msCounts
  cases c.buffer with
  | none => simp
  | some id =>
    by_cases h : 0 < c.res
    · simp only [h, if_true, Option.isSome_some, and_self]
      rfl
    · simp [h]

theorem takeBuffer_sessions (s : Server.St) (c : Completion) :
    (s.takeBuffer L c).sessions = s.sessions := (Server.adds_takeBuffer L s c).sessions

/-- the branch counts `counts` and takes the session out exactly on `ends` -/
theorem server_spec_of {ends : Completion → Bool} {counts : Completion → Nat}
    (h : ∀ (s : Server.St) c ss, s.sessions.lookup ctx.fd = some ss →
      ((serverReceiver L ctx).handle s c).stats.bytesTransferred
          = s.stats.bytesTransferred + counts c ∧
        ((serverReceiver L ctx).handle s c).sessions
          = if ends c then s.sessions.erase ctx.fd else s.sessions) :
    (serverReceiver L ctx).Spec (fun s => (s.sessions.lookup ctx.fd).isSome = true) ends counts := by
  have h' : ∀ (s : Server.St) c, (s.sessions.lookup ctx.fd).isSome = true → _ := fun s c hs =>
    h s c _ (Option.eq_some_of_isSome hs)
  refine ⟨?_, fun s c hs => (h' s c hs).1, ?_⟩
  · intro s c hs
    show (((serverReceiver L ctx).handle s c).sessions.lookup ctx.fd).isNone = _
    rw [(h' s c hs).2]
    cases ends c with
    | true =>
      rw [if_pos rfl, AList.lookup_erase]
      rfl
    | false =>
      rw [if_neg Bool.false_ne_true, ← Option.not_isSome, hs]
      rfl
  · intro s c hs he
    rw [(h' s c hs).2, he, if_neg Bool.false_ne_true]
    exact hs

theorem server_spec_ms (htcp : L.config.protocol = .tcp) (hm : L.useMultishot = true) :
    (serverReceiver L ctx).Spec (fun s => (s.sessions.lookup ctx.fd).isSome = true) msEnds msCounts := by
  apply server_spec_of
  intro s c ss hl
  have h1 : (s.takeBuffer L c).stats.bytesTransferred = _ := takeBuffer_bytes s c
  have h2 : (s.takeBuffer L c).sessions = _ := takeBuffer_sessions s c
  have hudp : ¬ L.config.protocol = .udp := by rw [htcp]; exact Protocol.noConfusion
  show ((if L.useMultishot then _ else _ : Server.St).stats.bytesTransferred = _) ∧
    (if L.useMultishot then _ else _ : Server.St).sessions = _
  rw [if_pos hm]
  unfold Server.onRecvMultishot msEnds
  generalize s.takeBuffer L c = u at h1 h2 ⊢
  cases hmore : c.more with
  | true => exact ⟨h1, h2⟩
  | false =>
    by_cases hb : c.res = -ENOBUFS
    · simp only [Bool.false_eq_true, if_false, hb, if_true, Bool.not_false, Bool.true_and,
        bne_self_eq_false]
      exact ⟨h1, h2⟩
    · simp only [Bool.false_eq_true, if_false, hb, hudp, Bool.not_false, Bool.true_and,
        bne_iff_ne.mpr hb, if_true, h2, hl]
      refine ⟨?_, ?_⟩
      · show (u.errorIfNeg c.res).stats.bytesTransferred = _
        rw [errorIfNeg_bytes, h1]
      · show (u.errorIfNeg c.res).sessions.erase ctx.fd = _
        rw [errorIfNeg_sessions, h2]

theorem server_spec_once (hm : L.useMultishot = false) :
    (serverReceiver L ctx).Spec (fun s => (s.sessions.lookup ctx.fd).isSome = true) onceEnds
      onceCounts := by
  apply server_spec_of
  intro s c ss hl
  show ((if L.useMultishot then _ else _ : Server.St).stats.bytesTransferred = _) ∧
    (if L.useMultishot then _ else _ : Server.St).sessions = _
  rw [hm, if_neg Bool.false_ne_true]
  unfold Server.onRecv onceEnds onceCounts
  by_cases hr : 0 < c.res
  · rw [repeat_of_pos hr, if_pos hr, if_pos hr]
    exact ⟨rfl, rfl⟩
  · cases ha : isAgain c.res with
    | true =>
      rw [repeat_of_again ha, if_neg hr, if_neg hr]
      exact ⟨rfl, rfl⟩
    | false =>
      have hrep : isRepeat c.res = false := by
        unfold isRepeat
        rw [decide_eq_false hr, ha]
        rfl
      rw [hrep, if_neg hr, if_neg hr, if_neg Bool.false_ne_true, hl]
      refine ⟨errorIfNeg_bytes s c.res, ?_⟩
      show (s.errorIfNeg c.res).sessions.erase ctx.fd = _
      rw [errorIfNeg_sessions]
      rfl

end

/-! ## the receive branches of the client -/

section
variable (L : Client.Setup) (ctx : IOContext)

/-- the branch of `run_client_reverse_recv` for the completions of a receive with the context `ctx` -/
def clientReceiver : Receiver Client.St where
  handle := fun s c =>
    if L.useMultishot then Client.onRecvMultishot L s ctx c else Client.onRecv L s ctx c
  closed := fun s => s.peerClosed
  bytes := fun s => s.stats.bytesTransferred

variable {L ctx}

theorem client_errorIfNeg_bytes (s : Client.St) (res : Int) :
    (s.errorIfNeg res).stats.bytesTransferred = s.stats.bytesTransferred := by
  unfold Client.St.errorIfNeg
  split <;> rfl

theorem client_takeBuffer (s : Client.St) (c : Completion) :
    (s.takeBuffer c).stats.bytesTransferred = s.stats.bytesTransferred + msCounts c ∧
      (s.takeBuffer c).peerClosed = s.peerClosed := by
  unfold Client.St.takeBuffer msCounts
  cases c.buffer with
  | none => simp
  | some id =>
    by_cases h : 0 < c.res
    · simp only [h, if_true, Option.isSome_some, and_self]
      exact ⟨rfl, rfl⟩
    · simp [h]

/-- the branch counts `counts` and sets the flag exactly on `ends` -/
theorem client_spec_of {ends : Completion → Bool} {counts : Completion → Nat}
    (h : ∀ s c, s.peerClosed = false →
      ((clientReceiver L ctx).handle s c).stats.bytesTransferred
          = s.stats.bytesTransferred + counts c ∧
        ((clientReceiver L ctx).handle s c).peerClosed = ends c) :
    (clientReceiver L ctx).Spec (fun s => s.peerClosed = false) ends counts :=
  ⟨fun s c hs => (h s c hs).2, fun s c hs => (h s c hs).1, fun s c hs he => (h s c hs).2.trans he⟩

theorem client_spec_ms (hm : L.useMultishot = true) :
    (clientReceiver L ctx).Spec (fun s => s.peerClosed = false) msEnds msCounts := by
  apply client_spec_of
  intro s c hs
  obtain ⟨h1, h2⟩ := client_takeBuffer s c
  rw [hs] at h2
  show ((if L.useMultishot then _ else _ : Client.St).stats.bytesTransferred = _) ∧
    (if L.useMultishot then _ else _ : Client.St).peerClosed = _
  rw [if_pos hm]
  unfold Client.onRecvMultishot msEnds
  generalize s.takeBuffer c = u at h1 h2 ⊢
  cases hmore : c.more with
  | true => exact ⟨h1, h2⟩
  | false =>
    by_cases hb : c.res = -ENOBUFS
    · simp only [Bool.false_eq_true, if_false, hb, if_true, bne_self_eq_false, Bool.and_false]
      exact ⟨h1, h2⟩
    · simp only [Bool.false_eq_true, if_false, hb, Bool.not_false, Bool.true_and, bne_iff_ne.mpr hb]
      refine ⟨?_, trivial⟩
      show (u.errorIfNeg c.res).stats.bytesTransferred = _
      rw [client_errorIfNeg_bytes, h1]

theorem client_spec_once (hm : L.useMultishot = false) :
    (clientReceiver L ctx).Spec (fun s => s.peerClosed = false) onceEnds onceCounts := by
  apply client_spec_of
  intro s c hs
  show ((if L.useMultishot then _ else _ : Client.St).stats.bytesTransferred = _) ∧
    (if L.useMultishot then _ else _ : Client.St).peerClosed = _
  rw [hm, if_neg Bool.false_ne_true]
  unfold Client.onRecv onceEnds onceCounts
  by_cases hr : 0 < c.res
  · rw [repeat_of_pos hr, if_pos hr, if_pos hr]
    cases s.stop with
    | true => exact ⟨rfl, hs⟩
    | false => exact ⟨rfl, hs⟩
  · cases ha : isAgain c.res with
    | true =>
      rw [repeat_of_again ha, if_neg hr, if_neg hr]
      cases s.stop with
      | true => exact ⟨rfl, hs⟩
      | false => exact ⟨rfl, hs⟩
    | false =>
      have hrep : isRepeat c.res = false := by
        unfold isRepeat
        rw [decide_eq_false hr, ha]
        rfl
      rw [hrep, if_neg hr, if_neg hr, if_neg Bool.false_ne_true]
      exact ⟨client_errorIfNeg_bytes s c.res, rfl⟩

end

/-! ## both programs -/

/-- the kind of the receives that a loop uses -/
def recvKind (multishot : Bool) : Kind := if multishot then .multishot else .once

/-- the receiver closes on a completion that means the end, with `n` more bytes counted -/
def Agrees {σ : Type} (R : Receiver σ) (s : σ) (cs : List Completion) (n : Nat) : Prop :=
  ∃ c, (R.feed s cs).2 = some c ∧ properEnd c.res = true ∧ R.bytes (R.feed s cs).1 = R.bytes s + n

theorem agrees_iff_whole {σ : Type} {R : Receiver σ} {I : σ → Prop} {ends : Completion → Bool}
    {counts : Completion → Nat} (h : R.Spec I ends counts) {s : σ} (hs : I s) (cs : List Completion)
    (n : Nat) : Agrees R s cs n ↔ Whole ends counts cs n := by
  obtain ⟨h1, h2⟩ := R.feed_eq h cs s hs
  unfold Agrees Whole
  rw [h1, h2]
  simp only [Nat.add_left_cancel_iff]

/-- a receiver that follows the multishot or the single-shot discipline -/
theorem agrees_iff {σ : Type} {R : Receiver σ} {I : σ → Prop} (multishot : Bool)
    (h1 : multishot = true → R.Spec I msEnds msCounts)
    (h2 : multishot = false → R.Spec I onceEnds onceCounts) {s : σ} (hs : I s) {n : Nat}
    {cs : List Completion} (h : Delivers (recvKind multishot) n cs) :
    Agrees R s cs n ↔ (multishot = true → NoEarlyEnd cs) := by
  cases multishot with
  | true =>
    rw [agrees_iff_whole (h1 rfl) hs, whole_ms n cs h]
    exact ⟨fun h _ => h, fun h => h rfl⟩
  | false =>
    rw [agrees_iff_whole (h2 rfl) hs]
    exact iff_of_true (whole_once n cs h) nofun

/-- **The end of a connection.**  For every stream and every way the kernel delivers it, the server
and the client end the connection at its end and with all bytes counted, unless they use multishot
receives and one that terminates carries data or asks to try again. -/
theorem recv_end_iff (L : Server.Setup) (htcp : L.config.protocol = .tcp) (K : Client.Setup) :
    (∀ (ctx : IOContext) (s : Server.St) (n : Nat) (cs : List Completion),
      (s.sessions.lookup ctx.fd).isSome = true → Delivers (recvKind L.useMultishot) n cs →
        (Agrees (serverReceiver L ctx) s cs n ↔ (L.useMultishot = true → NoEarlyEnd cs))) ∧
    (∀ (ctx : IOContext) (s : Client.St) (n : Nat) (cs : List Completion),
      s.peerClosed = false → Delivers (recvKind K.useMultishot) n cs →
        (Agrees (clientReceiver K ctx) s cs n ↔ (K.useMultishot = true → NoEarlyEnd cs))) := by
  refine ⟨?_, ?_⟩
  · intro ctx s n cs hs h
    exact agrees_iff L.useMultishot (server_spec_ms htcp) server_spec_once hs h
  · intro ctx s n cs hs h
    exact agrees_iff K.useMultishot client_spec_ms client_spec_once hs h

/-- a forward connection on descriptor 7 is accepted -/
def forwardRun : List Server.Act :=
  [.post 0 (.plain 7), .sweep 0, .reap, .cqe 0 (some (false, 10)), .submit]

/-- the peer sends 150 bytes; in between the buffers run out, which terminates the operation -/
def calmEnd : List Completion :=
  [⟨100, true, false, some 0⟩, ⟨-ENOBUFS, false, false, none⟩, ⟨50, true, false, some 1⟩, ⟨0, false, false, none⟩]

theorem calmEnd_delivers : Delivers .multishot 150 calmEnd := by
  have h0 : Delivers .multishot 0 [⟨0, false, false, none⟩] := .eof rfl rfl rfl
  have h1 : Delivers .multishot 50 [⟨50, true, false, some 1⟩, ⟨0, false, false, none⟩] :=
    .chunk (c := ⟨50, true, false, some 1⟩) rfl (by decide) (fun _ => rfl) h0
  have h2 := Delivers.again (c := ⟨-ENOBUFS, false, false, none⟩) rfl (Or.inr ⟨rfl, rfl⟩) h1
  exact .chunk (c := ⟨100, true, false, some 0⟩) rfl (by decide) (fun _ => rfl) h2

/-- an accepted connection and a client receive it to its end -/
theorem recv_end_iff_default : Server.defaultSetup.config.protocol = .tcp ∧
    (∃ s, Trans.Reach (Server.step Server.defaultSetup) (Server.start Server.defaultSetup 256) s ∧
      (s.sessions.lookup 7).isSome = true ∧
      Agrees (serverReceiver Server.defaultSetup (Server.defaultSetup.msCtx ⟨7, 1⟩)) s calmEnd 150) ∧
    Agrees (clientReceiver Client.reverseSetup Client.reverseSetup.msCtx) (Client.recvStart Client.reverseSetup 256)
      calmEnd 150 := by
  have hcalm : NoEarlyEnd calmEnd := by
    unfold NoEarlyEnd
    decide
  obtain ⟨s, hreach, hs⟩ : ∃ s, Trans.Reach (Server.step Server.defaultSetup) (Server.start Server.defaultSetup 256) s ∧
      (s.sessions.lookup 7).isSome = true := Trans.exists_reach forwardRun (by decide +kernel)
  obtain ⟨hserver, hclient⟩ := recv_end_iff Server.defaultSetup rfl Client.reverseSetup
  exact ⟨rfl, ⟨s, hreach, hs, (hserver _ s 150 calmEnd hs calmEnd_delivers).mpr fun _ => hcalm⟩,
    (hclient _ _ 150 calmEnd (by decide +kernel) calmEnd_delivers).mpr fun _ => hcalm⟩

/-- the peer sends 150 bytes; the operation terminates with the first 100 of them -/
def earlyEnd : List Completion :=
  [⟨100, false, false, some 0⟩, ⟨50, true, false, some 1⟩, ⟨0, false, false, none⟩]

theorem earlyEnd_delivers : Delivers .multishot 150 earlyEnd := by
  have h0 : Delivers .multishot 0 [⟨0, false, false, none⟩] := .eof rfl rfl rfl
  have h1 : Delivers .multishot 50 [⟨50, true, false, some 1⟩, ⟨0, false, false, none⟩] :=
    .chunk (c := ⟨50, true, false, some 1⟩) rfl (by decide) (fun _ => rfl) h0
  exact .chunk (c := ⟨100, false, false, some 0⟩) rfl (by decide) (fun _ => rfl) h1

/-- both programs take the first 100 bytes for the end of the connection -/
theorem earlyEnd_disagrees : ∃ s, Trans.Reach (Server.step Server.defaultSetup) (Server.start Server.defaultSetup 256) s ∧
    s.sessions.lookup 7 = some ⟨7, false, 0, [], [], some (Server.defaultSetup.msCtx ⟨7, 1⟩), ⟨7, 1⟩⟩ ∧
    Delivers .multishot 150 earlyEnd ∧
    ¬ Agrees (serverReceiver Server.defaultSetup (Server.defaultSetup.msCtx ⟨7, 1⟩)) s earlyEnd 150 ∧
    ¬ Agrees (clientReceiver Client.reverseSetup Client.reverseSetup.msCtx) (Client.recvStart Client.reverseSetup 256)
      earlyEnd 150 := by
  have h : ((Trans.runFrom (Server.step Server.defaultSetup) (Server.start Server.defaultSetup 256) forwardRun).any
      fun s => decide (s.sessions.lookup 7
        = some ⟨7, false, 0, [], [], some (Server.defaultSetup.msCtx ⟨7, 1⟩), ⟨7, 1⟩⟩) &&
      decide (((serverReceiver Server.defaultSetup (Server.defaultSetup.msCtx ⟨7, 1⟩)).feed s earlyEnd).2
        = some ⟨100, false, false, some 0⟩)) = true := by decide +kernel
  obtain ⟨s, hs, h⟩ := (Option.any_eq_true _ _).mp h
  rw [Bool.and_eq_true, decide_eq_true_eq, decide_eq_true_eq] at h
  have hc : ((clientReceiver Client.reverseSetup Client.reverseSetup.msCtx).feed
      (Client.recvStart Client.reverseSetup 256) earlyEnd).2 = some ⟨100, false, false, some 0⟩ := by decide +kernel
  refine ⟨s, Trans.Reach.of_runFrom _ hs, h.1, earlyEnd_delivers, ?_, ?_⟩
  · rintro ⟨c, h1, h2, -⟩
    rw [h.2] at h1
    cases h1
    cases h2
  · rintro ⟨c, h1, h2, -⟩
    rw [hc] at h1
    cases h1
    cases h2

end Recv
end UringPerf
