import UringPerf.Net.Stream

/-!
# How long the handshake takes

`recv_all` over a virtual clock in milliseconds.  The peer is a schedule: when each of its bytes arrives, and when
it closes the connection, if it does.  A `recv` on a blocking descriptor waits for the next byte or the end of the
stream; on a non-blocking one it fails and the loop waits in `poll`.  Nothing else takes time.

* `Peer`, `due`            a schedule, and when byte `j` or the end that comes instead is there;
* `turn`                   what the kernel answers in one turn of the loop, and when;
* `recvAllAt`              the loop; `blocks` if a `recv` never returns;
* `recvAllAt_script`       it is the loop of `Net.Stream` on the script of these answers;
* `handshake_within_iff`   which peers and modes keep `recv_handshake` within its 5 seconds.
-/

namespace UringPerf.Net

inductive Mode where
  | blocking
  | nonblocking
  deriving DecidableEq, Repr

/-- bytes in the order in which they arrive, with their times; nothing arrives after the end -/
structure Peer where
  bytes : List (Nat × UInt8)
  eof : Option Nat
  ordered : bytes.Pairwise fun a b => a.1 ≤ b.1
  eof_last : ∀ e, eof = some e → ∀ b ∈ bytes, b.1 ≤ e

namespace Peer

/-- when a `recv` that has taken `j` bytes can return -/
def due (p : Peer) (j : Nat) : Option Nat :=
  match p.bytes[j]? with
  | some b => some b.1
  | none => p.eof

/-- how many bytes are there at time `t` -/
def arrived (p : Peer) (t : Nat) : Nat := p.bytes.countP fun b => b.1 ≤ t

/-- what a `recv` that does not have to wait returns -/
def answer (p : Peer) (t got : Nat) : Call :=
  if got < p.arrived t then .ready (p.arrived t - got - 1) else .zero

def stream (p : Peer) : List UInt8 := p.bytes.map (·.2)

end Peer

/-- one turn of the loop, begun at time `t` with `got` bytes read; `none` if the `recv` never returns -/
def turn (mode : Mode) (p : Peer) (timeoutMs t got : Nat) : Option (Call × Nat) :=
  match p.due got, mode with
  | none, .blocking => none
  | none, .nonblocking => some (.failed .again 0, t + timeoutMs)
  | some d, mode =>
    if d ≤ t then some (p.answer t got, t)
    else match mode with
      | .blocking => some (p.answer d got, d)
      | .nonblocking =>
        if d ≤ t + timeoutMs then some (.failed .again 1, d) else some (.failed .again 0, t + timeoutMs)

inductive Outcome where
  | returns (ok : Bool) (time : Nat)
  | blocks
  deriving DecidableEq, Repr

/-- `recv_all`; the first argument bounds the number of turns -/
def recvAllAt (mode : Mode) (p : Peer) (timeoutMs len : Nat) : Nat → Nat → Nat → Option Outcome
  | 0, _, _ => none
  | fuel + 1, t, got =>
    if got < len then
      match turn mode p timeoutMs t got with
      | none => some .blocks
      | some (c, t') =>
        let n := c.result (len - got)
        if 0 < n then recvAllAt mode p timeoutMs len fuel t' (got + n.toNat)
        else if n = 0 then some (.returns false t')
        else if c.transient then
          if c.poll ≤ 0 then some (.returns false t') else recvAllAt mode p timeoutMs len fuel t' got
        else some (.returns false t')
    else some (.returns true t)

/-- `recv_handshake` called at time `t`: five bytes, and eleven turns are enough -/
def recvHandshakeAt (mode : Mode) (p : Peer) (t : Nat) : Option Outcome := recvAllAt mode p 5000 5 11 t 0

section
variable {mode : Mode} {p : Peer} {timeoutMs len fuel t got d : Nat}

/-! ## the schedule -/

theorem Peer.arrived_le (p : Peer) (t : Nat) : p.arrived t ≤ p.bytes.length := List.countP_le_length

theorem Peer.arrived_mono {t t' : Nat} (h : t ≤ t') : p.arrived t ≤ p.arrived t' := by
  refine List.countP_mono_left fun b _ hb => ?_
  have hb := of_decide_eq_true hb
  exact decide_eq_true (hb.trans h)

/-- the bytes that are there are the first ones -/
theorem Peer.lt_arrived_iff {j : Nat} (hj : j < p.bytes.length) : j < p.arrived t ↔ p.bytes[j].1 ≤ t := by
  have hsplit : p.bytes = p.bytes.take j ++ p.bytes[j] :: p.bytes.drop (j + 1) := by
    rw [← List.drop_eq_getElem_cons hj, List.take_append_drop]
  have hord := p.ordered
  have hcount : p.arrived t = (p.bytes.take j).countP (fun b => b.1 ≤ t) +
      (p.bytes[j] :: p.bytes.drop (j + 1)).countP (fun b => b.1 ≤ t) := by
    unfold Peer.arrived
    nth_rewrite 1 [hsplit]
    exact List.countP_append
  rw [hsplit] at hord
  obtain ⟨-, hafter, hbefore⟩ := List.pairwise_append.mp hord
  have hlen : (p.bytes.take j).length = j := by
    rw [List.length_take]
    omega
  constructor
  · intro h
    by_contra hlt
    -- no byte from `j` on is there
    have hzero : (p.bytes[j] :: p.bytes.drop (j + 1)).countP (fun b => b.1 ≤ t) = 0 := by
      refine List.countP_eq_zero.mpr fun b hb => ?_
      have hge : p.bytes[j].1 ≤ b.1 := by
        rcases List.mem_cons.mp hb with rfl | hb
        · exact le_rfl
        · exact (List.pairwise_cons.mp hafter).1 b hb
      simp only [decide_eq_true_eq]
      omega
    have hle : (p.bytes.take j).countP (fun b => b.1 ≤ t) ≤ (p.bytes.take j).length := List.countP_le_length
    omega
  · intro h
    have hall : (p.bytes.take j).countP (fun b => b.1 ≤ t) = (p.bytes.take j).length := by
      refine List.countP_eq_length.mpr fun b hb => ?_
      have hle := hbefore b hb p.bytes[j] List.mem_cons_self
      simp only [decide_eq_true_eq]
      omega
    have hone : 0 < (p.bytes[j] :: p.bytes.drop (j + 1)).countP (fun b => b.1 ≤ t) :=
      List.countP_pos_iff.mpr ⟨p.bytes[j], List.mem_cons_self, decide_eq_true h⟩
    omega

/-- byte `j`, or the end instead of it, is there at time `t` -/
def Peer.DueBy (p : Peer) (j t : Nat) : Prop := ∃ d, p.due j = some d ∧ d ≤ t

theorem Peer.due_byte {j : Nat} (hj : j < p.bytes.length) : p.due j = some p.bytes[j].1 := by
  unfold Peer.due
  rw [List.getElem?_eq_getElem hj]

theorem Peer.due_eof {j : Nat} (hj : p.bytes.length ≤ j) : p.due j = p.eof := by
  unfold Peer.due
  rw [List.getElem?_eq_none hj]

/-- a byte is there, or the stream has ended before it -/
theorem Peer.dueBy_iff {j : Nat} :
    p.DueBy j t ↔ j < p.arrived t ∨ p.bytes.length ≤ j ∧ ∃ e, p.eof = some e ∧ e ≤ t := by
  by_cases hj : j < p.bytes.length
  · unfold Peer.DueBy
    rw [p.due_byte hj, p.lt_arrived_iff hj]
    constructor
    · rintro ⟨d, hd, hle⟩
      cases hd
      exact .inl hle
    · rintro (hle | ⟨hge, -⟩)
      · exact ⟨_, rfl, hle⟩
      · omega
  · have hge := Nat.le_of_not_lt hj
    have harr := p.arrived_le t
    unfold Peer.DueBy
    rw [p.due_eof hge]
    constructor
    · exact fun h => .inr ⟨hge, h⟩
    · rintro (h | ⟨-, h⟩)
      · omega
      · exact h

theorem Peer.DueBy.mono {j t' : Nat} (h : p.DueBy j t) (ht : t ≤ t') : p.DueBy j t' := by
  obtain ⟨d, hd, hle⟩ := h
  exact ⟨d, hd, hle.trans ht⟩

/-- what is due later comes later -/
theorem Peer.DueBy.of_le {i j : Nat} (h : p.DueBy j t) (hij : i ≤ j) : p.DueBy i t := by
  rw [Peer.dueBy_iff] at h ⊢
  obtain h | ⟨hge, e, he, hle⟩ := h
  · exact .inl (Nat.lt_of_le_of_lt hij h)
  · by_cases hi : i < p.bytes.length
    · refine .inl ((p.lt_arrived_iff hi).mpr ?_)
      exact (p.eof_last e he _ (List.getElem_mem hi)).trans hle
    · exact .inr ⟨Nat.le_of_not_lt hi, e, he, hle⟩

theorem Peer.dueBy_due {j : Nat} (h : p.due j = some d) : p.DueBy j d := ⟨d, h, le_rfl⟩

/-! ## one turn of the loop -/

theorem turn_due (h : p.DueBy got t) : turn mode p timeoutMs t got = some (p.answer t got, t) := by
  obtain ⟨d, hd, hle⟩ := h
  unfold turn
  rw [hd]
  exact if_pos hle

theorem recvAllAt_full (fuel t : Nat) : recvAllAt mode p timeoutMs len (fuel + 1) t len = some (.returns true t) := by
  rw [recvAllAt]
  exact if_neg (Nat.lt_irrefl _)

/-- bytes are there: as many as the buffer has room for are read -/
theorem recvAllAt_ready (hlt : got < len) (h : got < p.arrived t) :
    recvAllAt mode p timeoutMs len (fuel + 1) t got =
      recvAllAt mode p timeoutMs len fuel t (got + min (p.arrived t - got) (len - got)) := by
  have hanswer : p.answer t got = .ready (p.arrived t - got - 1) := if_pos h
  have hresult : (p.answer t got).result (len - got) = (min (p.arrived t - got) (len - got) : Nat) := by
    rw [hanswer]
    show ((min (p.arrived t - got - 1 + 1) (len - got) : Nat) : Int) = _
    rw [Nat.sub_add_cancel (by omega)]
  have hpos : (0 : Int) < (min (p.arrived t - got) (len - got) : Nat) := by omega
  rw [recvAllAt, if_pos hlt, turn_due (Peer.dueBy_iff.mpr (.inl h))]
  dsimp only
  rw [hresult, if_pos hpos, Int.toNat_natCast]

/-- the stream has ended -/
theorem recvAllAt_ended (hlt : got < len) (hend : p.bytes.length ≤ got) (h : p.DueBy got t) :
    recvAllAt mode p timeoutMs len (fuel + 1) t got = some (.returns false t) := by
  have harr := p.arrived_le t
  have hanswer : p.answer t got = .zero := if_neg (by omega)
  rw [recvAllAt, if_pos hlt, turn_due h, hanswer]
  rfl

/-- nothing is due within the time of a `poll`: the loop gives up -/
theorem recvAllAt_timeout (hlt : got < len) (h : ¬ p.DueBy got (t + timeoutMs)) :
    recvAllAt .nonblocking p timeoutMs len (fuel + 1) t got = some (.returns false (t + timeoutMs)) := by
  have hturn : turn .nonblocking p timeoutMs t got = some (.failed .again 0, t + timeoutMs) := by
    unfold turn
    cases hd : p.due got with
    | none => rfl
    | some d =>
      have hlate : ¬ d ≤ t + timeoutMs := fun hle => h ⟨d, hd, hle⟩
      dsimp only
      rw [if_neg (fun hle => hlate (hle.trans (Nat.le_add_right _ _))), if_neg hlate]
  rw [recvAllAt, if_pos hlt, hturn]
  rfl

/-- the `poll` returns when something comes -/
theorem recvAllAt_woken (hlt : got < len) (hd : p.due got = some d) (h : t < d) (hle : d ≤ t + timeoutMs) :
    recvAllAt .nonblocking p timeoutMs len (fuel + 1) t got = recvAllAt .nonblocking p timeoutMs len fuel d got := by
  have hturn : turn .nonblocking p timeoutMs t got = some (.failed .again 1, d) := by
    unfold turn
    rw [hd]
    dsimp only
    rw [if_neg (Nat.not_le.mpr h), if_pos hle]
  rw [recvAllAt, if_pos hlt, hturn]
  rfl

/-- a blocking `recv` waits until something comes -/
theorem recvAllAt_wait (hlt : got < len) (hd : p.due got = some d) (h : t < d) :
    recvAllAt .blocking p timeoutMs len (fuel + 1) t got = recvAllAt .blocking p timeoutMs len (fuel + 1) d got := by
  have hturn : turn .blocking p timeoutMs t got = turn .blocking p timeoutMs d got := by
    rw [turn_due (Peer.dueBy_due hd)]
    unfold turn
    rw [hd]
    exact if_neg (Nat.not_le.mpr h)
  rw [recvAllAt, if_pos hlt, hturn, recvAllAt, if_pos hlt]

theorem recvAllAt_blocks (hlt : got < len) (hd : p.due got = none) :
    recvAllAt .blocking p timeoutMs len (fuel + 1) t got = some .blocks := by
  have hturn : turn .blocking p timeoutMs t got = none := by
    unfold turn
    rw [hd]
  rw [recvAllAt, if_pos hlt, hturn]

variable (mode p timeoutMs len t got) in
/-- what a turn can do, and what is left of the loop after it -/
inductive Turn : (Nat → Option Outcome) → Prop where
  /-- bytes are read, at the first moment from `t` on when there are any -/
  | read (τ : Nat) (hτ : t ≤ τ) (first : ∀ T, t ≤ T → p.DueBy got T → τ ≤ T) (h : got < p.arrived τ) :
    Turn fun fuel => recvAllAt mode p timeoutMs len fuel τ (got + min (p.arrived τ - got) (len - got))
  | ended (τ : Nat) (hτ : t ≤ τ) (first : ∀ T, t ≤ T → p.DueBy got T → τ ≤ T) (h : p.bytes.length ≤ got)
    (hdue : p.DueBy got τ) : Turn fun _ => some (.returns false τ)
  | woken (d : Nat) (hm : mode = .nonblocking) (hd : p.due got = some d) (h : t < d) (hle : d ≤ t + timeoutMs) :
    Turn fun fuel => recvAllAt mode p timeoutMs len fuel d got
  | timeout (hm : mode = .nonblocking) (h : ¬ p.DueBy got (t + timeoutMs)) :
    Turn fun _ => some (.returns false (t + timeoutMs))
  | blocked (hm : mode = .blocking) (h : p.due got = none) : Turn fun _ => some .blocks

/-- something is there: it is read, or it is the end -/
theorem turn_of_due {τ : Nat} (hlt : got < len) (hτ : t ≤ τ) (first : ∀ T, t ≤ T → p.DueBy got T → τ ≤ T)
    (hdue : p.DueBy got τ) : ∃ rest, Turn mode p timeoutMs len t got rest ∧
      ∀ fuel, recvAllAt mode p timeoutMs len (fuel + 1) τ got = rest fuel := by
  by_cases h : got < p.arrived τ
  · exact ⟨_, .read τ hτ first h, fun _ => recvAllAt_ready hlt h⟩
  · obtain h' | ⟨hend, -⟩ := Peer.dueBy_iff.mp hdue
    · exact absurd h' h
    · exact ⟨_, .ended τ hτ first hend hdue, fun _ => recvAllAt_ended hlt hend hdue⟩

variable (mode p timeoutMs t) in
theorem turn_cases (hlt : got < len) : ∃ rest, Turn mode p timeoutMs len t got rest ∧
    ∀ fuel, recvAllAt mode p timeoutMs len (fuel + 1) t got = rest fuel := by
  by_cases hdue : p.DueBy got t
  · exact turn_of_due hlt le_rfl (fun T hT _ => hT) hdue
  cases mode with
  | blocking =>
    cases hd : p.due got with
    | none => exact ⟨_, .blocked rfl hd, fun _ => recvAllAt_blocks hlt hd⟩
    | some d =>
      have hlate : t < d := Nat.lt_of_not_le fun hle => hdue ⟨d, hd, hle⟩
      have hfirst : ∀ T, t ≤ T → p.DueBy got T → d ≤ T := by
        rintro T - ⟨d', hd', hle⟩
        rw [hd] at hd'
        cases hd'
        exact hle
      obtain ⟨rest, hturn, hrest⟩ := turn_of_due hlt hlate.le hfirst (Peer.dueBy_due hd)
      exact ⟨rest, hturn, fun fuel => (recvAllAt_wait hlt hd hlate).trans (hrest fuel)⟩
  | nonblocking =>
    by_cases hsoon : p.DueBy got (t + timeoutMs)
    · obtain ⟨d, hd, hle⟩ := hsoon
      have hlate : t < d := Nat.lt_of_not_le fun h => hdue ⟨d, hd, h⟩
      exact ⟨_, .woken d rfl hd hlate hle, fun _ => recvAllAt_woken hlt hd hlate hle⟩
    · exact ⟨_, .timeout rfl hsoon, fun _ => recvAllAt_timeout hlt hsoon⟩

/-! ## the whole loop -/

/-- the turns left are enough: two for each byte, one less if the next byte is there, and one to leave the loop -/
def Enough (p : Peer) (len fuel t got : Nat) : Prop :=
  2 * (len - got) < fuel ∨ got < len ∧ p.DueBy got t ∧ 2 * (len - got) ≤ fuel

theorem Enough.pos (h : Enough p len fuel t got) : 0 < fuel := by
  obtain h | ⟨hlt, -, h⟩ := h <;> omega

theorem Enough.read (h : Enough p len (fuel + 1) t got) (hlt : got < len) {t' n : Nat} (hn : 0 < n) :
    Enough p len fuel t' (got + n) := by
  refine .inl ?_
  obtain h | ⟨-, -, h⟩ := h <;> omega

/-- a turn that only waits makes the next byte due -/
theorem Enough.woken (h : Enough p len (fuel + 1) t got) (hlt : got < len) (hd : p.due got = some d) (hlate : t < d) :
    Enough p len fuel d got := by
  refine .inr ⟨hlt, Peer.dueBy_due hd, ?_⟩
  obtain h | ⟨-, ⟨d', hd', hle⟩, -⟩ := h
  · omega
  · rw [hd] at hd'
    cases hd'
    omega

/-- how far a read takes the loop -/
theorem read_bounds {τ : Nat} (hlt : got < len) (h : got < p.arrived τ) :
    0 < min (p.arrived τ - got) (len - got) ∧ got + min (p.arrived τ - got) (len - got) ≤ len ∧
    got + min (p.arrived τ - got) (len - got) ≤ p.arrived τ := by
  omega

/-- something is there: the loop reads on, or returns because it is the end -/
theorem recvAllAt_due (hlt : got < len) (hdue : p.DueBy got t) :
    (∃ n > 0, got + n ≤ len ∧ ∀ fuel, recvAllAt mode p timeoutMs len (fuel + 1) t got =
      recvAllAt mode p timeoutMs len fuel t (got + n)) ∨
    ∀ fuel, recvAllAt mode p timeoutMs len (fuel + 1) t got = some (.returns false t) := by
  by_cases h : got < p.arrived t
  · obtain ⟨hpos, hle, -⟩ := read_bounds hlt h
    exact .inl ⟨_, hpos, hle, fun _ => recvAllAt_ready hlt h⟩
  · obtain h' | ⟨hend, -⟩ := Peer.dueBy_iff.mp hdue
    · exact absurd h' h
    · exact .inr fun _ => recvAllAt_ended hlt hend hdue

/-- all bytes, or the end of the stream, come by `D`, and no `poll` expires before: the loop returns by `D` -/
theorem recvAllAt_complete {D : Nat} (hlast : p.DueBy (len - 1) D) : ∀ {fuel t got : Nat}, got ≤ len →
    Enough p len fuel t got → t ≤ D → D ≤ t + timeoutMs →
    ∃ ok r, recvAllAt mode p timeoutMs len fuel t got = some (.returns ok r) ∧ r ≤ D := by
  intro fuel
  induction fuel with
  | zero =>
    intro t got _ henough
    exact absurd henough.pos (Nat.lt_irrefl _)
  | succ fuel ih =>
    intro t got hgot henough ht hD
    obtain rfl | hlt := Nat.eq_or_lt_of_le hgot
    · exact ⟨true, t, recvAllAt_full fuel t, ht⟩
    have hdue : p.DueBy got D := hlast.of_le (by omega)
    obtain ⟨rest, hturn, hrest⟩ := turn_cases mode p timeoutMs t hlt
    rw [hrest]
    cases hturn with
    | read τ hτ first h =>
      obtain ⟨hpos, hle, -⟩ := read_bounds hlt h
      exact ih hle (henough.read hlt hpos) (first D ht hdue) (hD.trans (Nat.add_le_add_right hτ _))
    | ended τ hτ first hend hτdue => exact ⟨false, τ, rfl, first D ht hdue⟩
    | woken d hm hd hlate hle =>
      obtain ⟨d', hd', hdD⟩ := hdue
      rw [hd] at hd'
      cases hd'
      exact ih hgot (henough.woken hlt hd hlate) hdD (by omega)
    | timeout hm h => exact absurd (hdue.mono hD) h
    | blocked hm h =>
      obtain ⟨d, hd, -⟩ := hdue
      rw [h] at hd
      cases hd

/-- nothing comes during the first `poll`: the loop gives up when it expires -/
theorem recvAllAt_quiet (hquiet : ∀ j < len, p.DueBy j (t + timeoutMs) → p.DueBy j t) : ∀ {fuel got : Nat}, got ≤ len →
    Enough p len fuel t got →
    ∃ ok r, recvAllAt .nonblocking p timeoutMs len fuel t got = some (.returns ok r) ∧ r ≤ t + timeoutMs := by
  intro fuel
  induction fuel with
  | zero =>
    intro got _ henough
    exact absurd henough.pos (Nat.lt_irrefl _)
  | succ fuel ih =>
    intro got hgot henough
    obtain rfl | hlt := Nat.eq_or_lt_of_le hgot
    · exact ⟨true, t, recvAllAt_full fuel t, Nat.le_add_right _ _⟩
    by_cases hsoon : p.DueBy got (t + timeoutMs)
    · obtain ⟨n, hn, hle, hread⟩ | hend := recvAllAt_due hlt (hquiet got hlt hsoon)
      · rw [hread]
        exact ih hle (henough.read hlt hn)
      · exact ⟨false, t, hend fuel, Nat.le_add_right _ _⟩
    · exact ⟨false, t + timeoutMs, recvAllAt_timeout hlt hsoon, le_rfl⟩

/-- the loop returns only when all bytes or the end of the stream are there, or when a whole `poll` has passed
without anything -/
theorem recvAllAt_returns (hlen : 0 < len) : ∀ {fuel t got : Nat} {ok : Bool} {r : Nat}, got ≤ len → got ≤ p.arrived t →
    recvAllAt mode p timeoutMs len fuel t got = some (.returns ok r) →
    p.DueBy (len - 1) r ∨
      mode = .nonblocking ∧ ∃ τ ≥ t, r = τ + timeoutMs ∧ ∃ j < len, j ≤ p.arrived τ ∧ ¬ p.DueBy j r := by
  intro fuel
  induction fuel with
  | zero =>
    intro t got ok r _ _ h
    cases h
  | succ fuel ih =>
    intro t got ok r hgot harr h
    obtain rfl | hlt := Nat.eq_or_lt_of_le hgot
    · rw [recvAllAt_full] at h
      cases h
      exact .inl (Peer.dueBy_iff.mpr (.inl (by omega)))
    obtain ⟨rest, hturn, hrest⟩ := turn_cases mode p timeoutMs t hlt
    rw [hrest] at h
    cases hturn with
    | read τ hτ first hread =>
      obtain ⟨-, hle, harr'⟩ := read_bounds hlt hread
      obtain hdone | ⟨hm, τ', hτ', hidle⟩ := ih hle harr' h
      · exact .inl hdone
      · exact .inr ⟨hm, τ', hτ.trans hτ', hidle⟩
    | ended τ hτ first hend hdue =>
      cases h
      obtain h' | ⟨-, he⟩ := Peer.dueBy_iff.mp hdue
      · have := p.arrived_le r
        omega
      · exact .inl (Peer.dueBy_iff.mpr (.inr ⟨by omega, he⟩))
    | woken d hm hd hlate hle =>
      obtain hdone | ⟨-, τ', hτ', hidle⟩ := ih hgot (harr.trans (Peer.arrived_mono hlate.le)) h
      · exact .inl hdone
      · exact .inr ⟨hm, τ', hlate.le.trans hτ', hidle⟩
    | timeout hm hlate =>
      cases h
      exact .inr ⟨hm, t, le_rfl, rfl, got, hlt, harr, hlate⟩
    | blocked hm hd => cases h

/-- without blocking every byte costs at most one `poll` -/
theorem recvAllAt_nonblocking_le {B : Nat} : ∀ {fuel t got : Nat}, got ≤ len → Enough p len fuel t got →
    (t + (len - got) * timeoutMs ≤ B ∨ got < len ∧ p.DueBy got t ∧ t + (len - got - 1) * timeoutMs ≤ B) →
    ∃ ok r, recvAllAt .nonblocking p timeoutMs len fuel t got = some (.returns ok r) ∧ r ≤ B := by
  intro fuel
  induction fuel with
  | zero =>
    intro t got _ henough
    exact absurd henough.pos (Nat.lt_irrefl _)
  | succ fuel ih =>
    intro t got hgot henough hB
    obtain rfl | hlt := Nat.eq_or_lt_of_le hgot
    · refine ⟨true, t, recvAllAt_full fuel t, ?_⟩
      obtain hB | ⟨hlt, -⟩ := hB <;> omega
    have hone : (len - got) * timeoutMs = (len - got - 1) * timeoutMs + timeoutMs := by
      rw [← Nat.succ_mul, Nat.succ_eq_add_one, Nat.sub_add_cancel (by omega)]
    by_cases hdue : p.DueBy got t
    · have hB' : t + (len - got - 1) * timeoutMs ≤ B := by
        obtain hB | ⟨-, -, hB⟩ := hB <;> omega
      obtain ⟨n, hn, hle, hread⟩ | hend := recvAllAt_due hlt hdue
      · have hfewer : (len - (got + n)) * timeoutMs ≤ (len - got - 1) * timeoutMs :=
          Nat.mul_le_mul_right _ (by omega)
        rw [hread]
        exact ih hle (henough.read hlt hn) (.inl (by omega))
      · exact ⟨false, t, hend fuel, by omega⟩
    · have hB' : t + (len - got) * timeoutMs ≤ B := by
        obtain hB | ⟨-, h, -⟩ := hB
        · exact hB
        · exact absurd h hdue
      by_cases hsoon : p.DueBy got (t + timeoutMs)
      · obtain ⟨d, hd, hle⟩ := hsoon
        have hlate : t < d := Nat.lt_of_not_le fun h => hdue ⟨d, hd, h⟩
        rw [recvAllAt_woken hlt hd hlate hle]
        exact ih hgot (henough.woken hlt hd hlate) (.inr ⟨hlt, Peer.dueBy_due hd, by omega⟩)
      · exact ⟨false, t + timeoutMs, recvAllAt_timeout hlt hsoon, by omega⟩

/-! ## the script of the answers -/

/-- the loop over the clock is the loop of `Net.Stream`, on the answers of its turns -/
theorem recvAllAt_script : ∀ {fuel t got : Nat} {ok : Bool} {r : Nat}, got ≤ len → got ≤ p.arrived t →
    recvAllAt mode p timeoutMs len fuel t got = some (.returns ok r) →
    ∃ cs buf rest, recvAll len (p.stream.take got) cs (p.stream.drop got) = some (ok, buf, rest) := by
  intro fuel
  induction fuel with
  | zero =>
    intro t got ok r _ _ h
    cases h
  | succ fuel ih =>
    intro t got ok r hgot harr h
    have hstream : p.stream.length = p.bytes.length := List.length_map _
    have hbytes := p.arrived_le t
    have htake : (p.stream.take got).length = got := by
      rw [List.length_take]
      omega
    obtain rfl | hlt := Nat.eq_or_lt_of_le hgot
    · rw [recvAllAt_full] at h
      cases h
      exact ⟨[], _, _, recvAll_done htake.ge [] _⟩
    have hlt' : (p.stream.take got).length < len := by rwa [htake]
    obtain ⟨rest, hturn, hrest⟩ := turn_cases mode p timeoutMs t hlt
    rw [hrest] at h
    cases hturn with
    | read τ hτ first hread =>
      have hτbytes := p.arrived_le τ
      have hdrop : (p.stream.drop got).length = p.bytes.length - got := by rw [List.length_drop, hstream]
      obtain ⟨-, hle, harr'⟩ := read_bounds hlt hread
      obtain ⟨cs, buf, rest, hcs⟩ := ih hle harr' h
      refine ⟨.ready (p.arrived τ - got - 1) :: cs, buf, rest, ?_⟩
      have hn : min (p.arrived τ - got - 1 + 1) (min (len - got) (p.bytes.length - got)) =
          min (p.arrived τ - got) (len - got) := by omega
      rw [recvAll_ready hlt' (by omega), htake, hdrop, hn, ← List.take_add, List.drop_drop]
      exact hcs
    | ended τ hτ first hend hdue =>
      cases h
      exact ⟨[.zero], _, _, recvAll_stop hlt' rfl [] _⟩
    | woken d hm hd hlate hle =>
      obtain ⟨cs, buf, rest, hcs⟩ := ih hgot (harr.trans (Peer.arrived_mono hlate.le)) h
      refine ⟨.failed .again 1 :: cs, buf, rest, ?_⟩
      rw [recvAll_failed hlt']
      exact hcs
    | timeout hm hlate =>
      cases h
      exact ⟨[.failed .again 0], _, _, recvAll_stop hlt' rfl [] _⟩
    | blocked hm hd => cases h

end

/-! ## the handshake -/

/-- no byte and no end comes while the first `poll` waits -/
def Peer.Quiet (p : Peer) (t : Nat) : Prop := ∀ j < 5, p.DueBy j (t + 5000) → p.DueBy j t

theorem enough_start (p : Peer) (t : Nat) : Enough p 5 11 t 0 := .inl (by decide)

/-- **How long a peer can stall the server.**  `recv_handshake` returns within 5000 ms exactly if the fifth byte or
the end of the stream comes within that time, or if the descriptor is non-blocking and nothing at all comes in it. -/
theorem handshake_within_iff (mode : Mode) (p : Peer) (t : Nat) :
    (∃ ok r, recvHandshakeAt mode p t = some (.returns ok r) ∧ r ≤ t + 5000) ↔
      p.DueBy 4 (t + 5000) ∨ mode = .nonblocking ∧ p.Quiet t := by
  constructor
  · rintro ⟨ok, r, h, hr⟩
    obtain hdone | ⟨hm, τ, hτ, rfl, j, hj, harr, hlate⟩ := recvAllAt_returns (by decide) (Nat.zero_le _) (Nat.zero_le _) h
    · exact .inl (hdone.mono hr)
    · -- the first `poll` expired, so everything read before it was there from the start
      obtain rfl : τ = t := by omega
      refine .inr ⟨hm, ?_⟩
      intro i _ hi
      by_cases hij : i < j
      · exact Peer.dueBy_iff.mpr (.inl (Nat.lt_of_lt_of_le hij harr))
      · exact absurd (hi.of_le (Nat.le_of_not_lt hij)) hlate
  · rintro (hdone | ⟨rfl, hquiet⟩)
    · exact recvAllAt_complete hdone (Nat.zero_le _) (enough_start p t) (Nat.le_add_right _ _) le_rfl
    · exact recvAllAt_quiet hquiet (Nat.zero_le _) (enough_start p t)

/-- a non-blocking descriptor can be stalled for at most 25 seconds -/
theorem handshake_nonblocking_le (p : Peer) (t : Nat) :
    ∃ ok r, recvHandshakeAt .nonblocking p t = some (.returns ok r) ∧ r ≤ t + 25000 :=
  recvAllAt_nonblocking_le (Nat.zero_le _) (enough_start p t) (.inl le_rfl)

/-- connects and says nothing -/
def silent : Peer := ⟨[], none, List.Pairwise.nil, fun _ h => nomatch h⟩

/-- sends a byte just before each `poll` expires -/
def trickle : Peer :=
  ⟨[(4999, 0), (9998, 0), (14997, 0), (19996, 0), (24995, 0)], none, by decide, fun _ h => nomatch h⟩

/-- **The handshake can take longer than 5 seconds.**  On the blocking descriptor that the server passes, a silent
peer stalls it forever; on a non-blocking one a slow peer stalls it for nearly 25 seconds. -/
theorem handshake_stalls :
    recvHandshakeAt .blocking silent 0 = some .blocks ∧
    recvHandshakeAt .nonblocking trickle 0 = some (.returns true 24995) := by
  decide +kernel

end UringPerf.Net
