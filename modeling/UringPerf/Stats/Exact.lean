import UringPerf.Base.Scan
import UringPerf.Stats.Collector

/-!
# The statistics lose nothing and count nothing twice

* `Counted`         the shared counters hold what was added, and what is still owed makes up the calls;
* `Reading.Good`    a read loop has read between what was there at its start and at its last load;
* `Reported`        the lines of the reporter: no interval wraps, together they are the last total read;
* `Joined`          what the main thread reads no worker changes any more;
* `stats_exact`     all of this along every run, as long as the totals fit into 64 bits.
-/

namespace UringPerf
namespace Stats

open Trans Scan

section
variable {numThreads workers : Nat} {fields : List Field} {f : Field} {s t : St}

/-! ## the loads of a read loop -/

/-- the counters of one field among a list of counters -/
def ofField (f : Field) (cells : List Cell) : List Cell := cells.filter fun c => c.2 = f

theorem ofField_append (l m : List Cell) : ofField f (l ++ m) = ofField f l ++ ofField f m := List.filter_append ..

theorem ofField_loads (hf : f ∈ fields) (hn : fields.Nodup) :
    ofField f (loads numThreads fields) = (List.range numThreads).map fun i => (i, f) := by
  have hone : fields.filter (fun g => g = f) = [f] := by
    rw [List.filter_eq, hn.count, if_pos hf]
    rfl
  have hrow : ∀ i : Nat, (fields.map fun g => ((i, g) : Cell)).filter (fun c => c.2 = f) = [(i, f)] := by
    intro i
    rw [List.filter_map]
    exact congrArg (List.map fun g => ((i, g) : Cell)) hone
  unfold ofField loads
  rw [List.filter_flatMap]
  simp only [hrow]
  exact List.map_eq_flatMap.symm

theorem sumOf_loads (hf : f ∈ fields) (hn : fields.Nodup) (mem : Cell → Nat) :
    sumOf mem (ofField f (loads numThreads fields)) = total numThreads mem f := by
  rw [ofField_loads hf hn]
  unfold sumOf total
  rw [List.map_map]
  rfl

theorem total_mono {lo hi : Cell → Nat} (h : ∀ c, lo c ≤ hi c) : total numThreads lo f ≤ total numThreads hi f :=
  List.sum_le_sum fun i _ => h (i, f)

/-! ## a read loop -/

/-- the total of a field lies between the counters at the start of the loop and at its last load -/
def Reading.Good (numThreads : Nat) (fields : List Field) (f : Field) (r : Reading) : Prop :=
  ∃ cells, loads numThreads fields = cells ++ r.left ∧
    Between r.start r.stop (ofField f cells) (r.totals f).toNat

theorem Reading.good_begin (added : Cell → Nat) : (Reading.begin numThreads fields added).Good numThreads fields f :=
  ⟨[], rfl, Between.nil added⟩

theorem Reading.Good.load {r : Reading} {c : Cell} {left : List Cell} {shared : Cell → UInt64} {added : Cell → Nat}
    (h : r.Good numThreads fields f) (hl : r.left = c :: left) (hf : f ∈ fields) (hn : fields.Nodup)
    (hstop : ∀ c, r.stop c ≤ added c) (hval : ∀ c, (shared c).toNat = added c % 2^64)
    (hb : total numThreads added f < 2^64) : (r.load c left (shared c) added).Good numThreads fields f := by
  obtain ⟨cells, hsplit, hbet⟩ := h
  rw [hl] at hsplit
  refine ⟨cells ++ [c], by rw [hsplit, List.append_assoc]; rfl, ?_⟩
  have hgrown := hbet.grow hstop
  rw [ofField_append]
  by_cases hc : c.2 = f
  · have hone : ofField f [c] = [c] := List.filter_eq_self.mpr (by simpa using hc)
    -- the new sum is at most the total over all threads, so that nothing wraps
    have hread := hgrown.read c
    have hle : (r.totals f).toNat + added c ≤ total numThreads added f := by
      refine hread.upper.trans ?_
      have hparts : ofField f (loads numThreads fields) = ofField f cells ++ [c] ++ ofField f left := by
        rw [hsplit, List.append_cons, ofField_append, ofField_append, hone]
      rw [← sumOf_loads hf hn, hparts, sumOf_append _ (ofField f left)]
      exact Nat.le_add_right _ _
    have hv : (shared c).toNat = added c := by
      rw [hval, Nat.mod_eq_of_lt (by omega)]
    have hsum : ((r.load c left (shared c) added).totals f).toNat = (r.totals f).toNat + added c := by
      show (Function.update r.totals c.2 (r.totals c.2 + shared c) f).toNat = _
      rw [hc, Function.update_self, UInt64.toNat_add, hv, Nat.mod_eq_of_lt (by omega)]
    rw [hone, hsum]
    exact hread
  · have hnone : ofField f [c] = [] := List.filter_eq_nil_iff.mpr (by simpa using hc)
    have hsame : (r.load c left (shared c) added).totals f = r.totals f :=
      Function.update_of_ne (Ne.symm hc) _ _
    rw [hnone, List.append_nil, hsame]
    exact hgrown

/-- at the end of the loop the total lies between the true totals at its start and at its last load -/
theorem Reading.Good.done {r : Reading} (h : r.Good numThreads fields f) (hl : r.left = []) (hf : f ∈ fields)
    (hn : fields.Nodup) : total numThreads r.start f ≤ (r.totals f).toNat ∧
      (r.totals f).toNat ≤ total numThreads r.stop f := by
  obtain ⟨cells, hsplit, hbet⟩ := h
  rw [hl, List.append_nil] at hsplit
  rw [← hsplit] at hbet
  rw [← sumOf_loads hf hn, ← sumOf_loads hf hn]
  exact ⟨hbet.lower, hbet.upper⟩

/-! ## the counters -/

theorem apply_get (c : Call) (stats : ThreadStats) : f.get (c.apply stats) = f.get stats + c.amount f := by
  cases c <;> cases f <;> rfl

theorem statsOf_concat (w v : Nat) (c : Call) (calls : List (Nat × Call)) :
    f.get (statsOf w (calls ++ [(v, c)])) = f.get (statsOf w calls) + if w = v then c.amount f else 0 := by
  unfold statsOf
  rw [List.filter_append]
  by_cases h : w = v
  · have hone : List.filter (fun x : Nat × Call => decide (x.1 = w)) [(v, c)] = [(v, c)] :=
      List.filter_eq_self.mpr (by simp [h])
    rw [hone, List.foldl_append, if_pos h]
    exact apply_get c _
  · have hnone : List.filter (fun x : Nat × Call => decide (x.1 = w)) [(v, c)] = [] :=
      List.filter_eq_nil_iff.mpr (by simp [Ne.symm h])
    rw [hnone, List.append_nil, if_neg h, Nat.add_zero]

theorem sum_at (v a : Nat) :
    ((List.range numThreads).map fun i => if i = v then a else 0).sum = if v < numThreads then a else 0 := by
  induction numThreads with
  | zero => rfl
  | succ n ih =>
    rw [List.range_succ, List.map_append, List.sum_append, ih, List.map_singleton, List.sum_singleton]
    split_ifs <;> omega

/-- the calls of the counted threads, thread by thread -/
theorem callTotal_eq (calls : List (Nat × Call)) :
    callTotal numThreads calls f = ((List.range numThreads).map fun i => f.get (statsOf i calls)).sum := by
  induction calls using List.reverseRecOn with
  | nil =>
    refine (List.sum_eq_zero ?_).symm
    intro x hx
    obtain ⟨i, -, rfl⟩ := List.mem_map.mp hx
    cases f <;> rfl
  | append_singleton calls c ih =>
    obtain ⟨v, c⟩ := c
    simp only [statsOf_concat, List.sum_map_add, sum_at]
    rw [← ih]
    unfold callTotal
    rw [List.filter_append, List.map_append, List.sum_append]
    by_cases h : v < numThreads
    · rw [if_pos h, List.filter_cons_of_pos (by simpa using h)]
      rfl
    · rw [if_neg h, List.filter_cons_of_neg (by simpa using h)]
      rfl

/-! ## what a step does -/

theorem step_call {w : Nat} {c : Call} (h : step numThreads workers s (.call w c) = some t) :
    (w < workers ∧ s.finished w = false ∧ s.todo w = []) ∧
    t = { s with
      todo := Function.update s.todo w (if w < numThreads then c.fetchAdds else [])
      calls := s.calls ++ [(w, c)] } := by
  simp only [step, Option.ite_none_right_eq_some, Option.some.injEq] at h
  exact ⟨h.1, h.2.symm⟩

theorem step_fetchAdd {w : Nat} (h : step numThreads workers s (.fetchAdd w) = some t) :
    ∃ g v rest, s.todo w = (g, v) :: rest ∧
    t = { s with
      shared := Function.update s.shared (w, g) (s.shared (w, g) + v)
      added := Function.update s.added (w, g) (s.added (w, g) + v.toNat)
      todo := Function.update s.todo w rest } := by
  simp only [step] at h
  split at h
  · cases h
  next g v rest htodo =>
    cases h
    exact ⟨g, v, rest, htodo, rfl⟩

theorem step_finish {w : Nat} (h : step numThreads workers s (.finish w) = some t) :
    s.todo w = [] ∧ t = { s with finished := Function.update s.finished w true } := by
  simp only [step, Option.ite_none_right_eq_some, Option.some.injEq] at h
  exact ⟨h.1, h.2.symm⟩

/-- the reporter changes nothing but its own variables -/
theorem reporter_frame (h : reporterStep numThreads s = some t) :
    ∃ reporter prev reports, t = { s with reporter := reporter, prev := prev, reports := reports } := by
  unfold reporterStep at h
  split at h
  · cases h
    exact ⟨_, _, _, rfl⟩
  · cases h
    exact ⟨_, _, _, rfl⟩
  · split at h
    · cases h
      exact ⟨_, _, _, rfl⟩
    · cases h
      exact ⟨_, _, _, rfl⟩
  · cases h

/-- how many workers the main thread has joined -/
def Joiner.joined (workers : Nat) : Joiner → Nat
  | .joining w => w
  | _ => workers

/-- the main thread changes nothing but the flag and its own variables, and joins only workers that have finished -/
theorem main_frame (h : mainStep numThreads workers s = some t) :
    (∃ running main, t = { s with running := running, main := main }) ∧
    ((∃ w, s.main = .joining w ∧ s.finished w = true ∧ t.main = .joining (w + 1)) ∨
      t.main.joined workers ≤ s.main.joined workers) := by
  unfold mainStep at h
  split at h
  next w hw =>
    split at h
    · split at h
      · next hfin =>
        cases h
        exact ⟨⟨_, _, rfl⟩, .inl ⟨w, hw, hfin, rfl⟩⟩
      · cases h
    · next hlt =>
      cases h
      refine ⟨⟨_, _, rfl⟩, .inr ?_⟩
      rw [hw]
      exact Nat.le_of_not_lt hlt
  next hm =>
    split at h
    · cases h
      exact ⟨⟨_, _, rfl⟩, .inr (by rw [hm]; exact le_rfl)⟩
    · cases h
  next r hm =>
    split at h
    · cases h
      exact ⟨⟨_, _, rfl⟩, .inr (by rw [hm]; exact le_rfl)⟩
    · cases h
      exact ⟨⟨_, _, rfl⟩, .inr (by rw [hm]; exact le_rfl)⟩
  next => cases h

/-- what has been added never shrinks -/
theorem step_added {a : Act} (h : step numThreads workers s a = some t) (c : Cell) : s.added c ≤ t.added c := by
  cases a with
  | call w c =>
    obtain ⟨-, rfl⟩ := step_call h
    exact le_rfl
  | fetchAdd w =>
    obtain ⟨g, v, rest, -, rfl⟩ := step_fetchAdd h
    show s.added c ≤ Function.update s.added _ _ c
    rw [Function.update_apply]
    split
    next e =>
      rw [e]
      exact Nat.le_add_right _ _
    · exact le_rfl
  | finish w =>
    obtain ⟨-, rfl⟩ := step_finish h
    exact le_rfl
  | reporter =>
    obtain ⟨_, _, _, rfl⟩ := reporter_frame h
    exact le_rfl
  | main =>
    obtain ⟨⟨_, _, rfl⟩, -⟩ := main_frame h
    exact le_rfl

/-! ## the workers -/

/-- the shared counters hold what was added, and what a call still owes makes up the calls -/
structure Counted (numThreads workers : Nat) (s : St) : Prop where
  cells : ∀ c, (s.shared c).toNat = s.added c % 2^64
  owed : ∀ w < numThreads, ∀ f, s.added (w, f) + amountIn f (s.todo w) = f.get (statsOf w s.calls)
  busy : ∀ w, s.todo w ≠ [] → w < workers ∧ s.finished w = false
  joined : ∀ w < s.main.joined workers, s.finished w = true

theorem counted_start : Counted numThreads workers start := by
  refine ⟨fun _ => rfl, ?_, fun _ h => absurd rfl h, fun w h => absurd h (Nat.not_lt_zero w)⟩
  intro w _ f
  cases f <;> rfl

theorem amountIn_cons (g : Field) (v : UInt64) (rest : List (Field × UInt64)) :
    amountIn f ((g, v) :: rest) = (if g = f then v.toNat else 0) + amountIn f rest := by
  unfold amountIn
  by_cases h : g = f
  · rw [List.filter_cons_of_pos (by simpa using h), if_pos h]
    rfl
  · rw [List.filter_cons_of_neg (by simpa using h), if_neg h, Nat.zero_add]

theorem Counted.call (h : Counted numThreads workers s) {w : Nat} {c : Call}
    (hst : step numThreads workers s (.call w c) = some t) : Counted numThreads workers t := by
  obtain ⟨⟨hw, hfin, htodo⟩, rfl⟩ := step_call hst
  refine ⟨h.cells, ?_, ?_, h.joined⟩
  · intro v hv f
    have hold := h.owed v hv f
    show s.added (v, f) + amountIn f (Function.update s.todo w _ v) = f.get (statsOf v (s.calls ++ [(w, c)]))
    rw [statsOf_concat]
    by_cases e : v = w
    · subst e
      rw [htodo] at hold
      rw [Function.update_self, if_pos hv, if_pos rfl, amountIn_fetchAdds, ← hold]
      rfl
    · rw [Function.update_of_ne e, if_neg e, hold]
      rfl
  · intro v hv
    by_cases e : v = w
    · rw [e]
      exact ⟨hw, hfin⟩
    · refine h.busy v ?_
      change Function.update s.todo w _ v ≠ [] at hv
      rwa [Function.update_of_ne e] at hv

theorem Counted.fetchAdd (h : Counted numThreads workers s) {w : Nat}
    (hst : step numThreads workers s (.fetchAdd w) = some t) : Counted numThreads workers t := by
  obtain ⟨g, v, rest, htodo, rfl⟩ := step_fetchAdd hst
  have hbusy := h.busy w (by rw [htodo]; exact List.cons_ne_nil _ _)
  refine ⟨?_, ?_, ?_, h.joined⟩
  · intro c
    show (Function.update s.shared (w, g) _ c).toNat = Function.update s.added (w, g) _ c % 2^64
    by_cases e : c = (w, g)
    · rw [e, Function.update_self, Function.update_self, UInt64.toNat_add, h.cells, Nat.mod_add_mod]
    · rw [Function.update_of_ne e, Function.update_of_ne e, h.cells]
  · intro i hi f
    have hold := h.owed i hi f
    show Function.update s.added (w, g) _ (i, f) + amountIn f (Function.update s.todo w rest i) = _
    by_cases e : i = w
    · subst e
      rw [htodo, amountIn_cons] at hold
      rw [Function.update_self, ← hold]
      by_cases ef : g = f
      · rw [ef, Function.update_self, if_pos rfl, Nat.add_assoc]
      · have hne : (i, f) ≠ (i, g) := fun he => ef (Prod.mk.inj he).2.symm
        rw [Function.update_of_ne hne, if_neg ef, Nat.zero_add]
    · have hne : (i, f) ≠ (w, g) := fun he => e (Prod.mk.inj he).1
      rw [Function.update_of_ne hne, Function.update_of_ne e, hold]
  · intro i hi
    by_cases e : i = w
    · rw [e]
      exact hbusy
    · refine h.busy i ?_
      change Function.update s.todo w rest i ≠ [] at hi
      rwa [Function.update_of_ne e] at hi

theorem Counted.finish (h : Counted numThreads workers s) {w : Nat}
    (hst : step numThreads workers s (.finish w) = some t) : Counted numThreads workers t := by
  obtain ⟨htodo, rfl⟩ := step_finish hst
  refine ⟨h.cells, h.owed, ?_, ?_⟩
  · intro v hv
    have hne : v ≠ w := fun e => hv (e ▸ htodo)
    show v < workers ∧ Function.update s.finished w true v = false
    rw [Function.update_of_ne hne]
    exact h.busy v hv
  · intro v hv
    show Function.update s.finished w true v = true
    rw [Function.update_apply]
    split
    · rfl
    · exact h.joined v hv

theorem counted_step {a : Act} (h : Counted numThreads workers s) (hst : step numThreads workers s a = some t) :
    Counted numThreads workers t := by
  cases a with
  | call w c => exact h.call hst
  | fetchAdd w => exact h.fetchAdd hst
  | finish w => exact h.finish hst
  | reporter =>
    obtain ⟨_, _, _, rfl⟩ := reporter_frame hst
    exact ⟨h.cells, h.owed, h.busy, h.joined⟩
  | main =>
    obtain ⟨⟨running, main, rfl⟩, hjoin⟩ := main_frame hst
    refine ⟨h.cells, h.owed, h.busy, ?_⟩
    intro w hw
    obtain ⟨v, hv, hfin, hnext⟩ | hle := hjoin
    · change w < Joiner.joined workers main at hw
      change main = .joining (v + 1) at hnext
      rw [hnext] at hw
      obtain hlt | rfl := Nat.lt_succ_iff_lt_or_eq.mp hw
      · exact h.joined w (by rw [hv]; exact hlt)
      · exact hfin
    · exact h.joined w (lt_of_lt_of_le hw hle)

/-! ## the reporter -/

/-- the total of the last line -/
def lastTotal (f : Field) (reports : List Report) : Nat :=
  match reports.getLast? with
  | none => 0
  | some r => (r.totals f).toNat

theorem lastTotal_concat (reports : List Report) (r : Report) : lastTotal f (reports ++ [r]) = (r.totals f).toNat := by
  unfold lastTotal
  rw [List.getLast?_concat]

def intervalSum (f : Field) (reports : List Report) : Nat := (reports.map fun r => (r.interval f).toNat).sum

theorem intervalSum_concat (reports : List Report) (r : Report) :
    intervalSum f (reports ++ [r]) = intervalSum f reports + (r.interval f).toNat := by
  unfold intervalSum
  rw [List.map_append, List.sum_append, List.map_singleton, List.sum_singleton]

/-- a line that follows the lines `before`: the interval is the difference of two totals and nothing wraps, the
intervals up to here make up the total, and the total is no less than the true one when the read loop began and no
more than the true one at its end -/
structure Report.Exact (numThreads : Nat) (f : Field) (before : List Report) (r : Report) : Prop where
  grows : lastTotal f before ≤ (r.totals f).toNat
  interval : (r.interval f).toNat = (r.totals f).toNat - lastTotal f before
  sum : intervalSum f (before ++ [r]) = (r.totals f).toNat
  lower : total numThreads r.start f ≤ (r.totals f).toNat
  upper : (r.totals f).toNat ≤ total numThreads r.stop f

structure Reported (numThreads : Nat) (f : Field) (s : St) : Prop where
  last : lastTotal f s.reports = (s.prev f).toNat
  sum : intervalSum f s.reports = (s.prev f).toNat
  prev_le : (s.prev f).toNat ≤ total numThreads s.added f
  lines : ∀ before r after, s.reports = before ++ r :: after → r.Exact numThreads f before
  reading : ∀ r, s.reporter = .reading r →
    r.Good numThreads reporterFields f ∧ (∀ c, r.stop c ≤ s.added c) ∧ (s.prev f).toNat ≤ total numThreads r.start f

theorem reported_start : Reported numThreads f start := by
  refine ⟨rfl, rfl, Nat.zero_le _, ?_, ?_⟩
  · intro before r after h
    exact absurd h.symm (List.append_ne_nil_of_right_ne_nil _ (List.cons_ne_nil _ _))
  · intro r h
    cases h

/-- steps of the other threads: the lines stay, the counters grow -/
theorem Reported.frame (h : Reported numThreads f s) (hrep : t.reports = s.reports) (hprev : t.prev = s.prev)
    (hr : t.reporter = s.reporter) (hadd : ∀ c, s.added c ≤ t.added c) : Reported numThreads f t := by
  refine ⟨by rw [hrep, hprev]; exact h.last, by rw [hrep, hprev]; exact h.sum, ?_, by rw [hrep]; exact h.lines, ?_⟩
  · rw [hprev]
    exact h.prev_le.trans (total_mono hadd)
  · intro r e
    obtain ⟨hgood, hstop, hp⟩ := h.reading r (hr ▸ e)
    rw [hprev]
    exact ⟨hgood, fun c => (hstop c).trans (hadd c), hp⟩

/-- the end of a read loop: one more line -/
theorem Reported.emit (h : Reported numThreads f s) (hf : f ∈ reporterFields) {r : Reading}
    (hr : s.reporter = .reading r) (hl : r.left = []) : Reported numThreads f (emit s r) := by
  obtain ⟨hgood, hstop, hp⟩ := h.reading r hr
  obtain ⟨hlo, hhi⟩ := hgood.done hl hf (by decide)
  have hle : s.prev f ≤ r.totals f := UInt64.le_iff_toNat_le.mpr (hp.trans hlo)
  have hint : (r.totals f - s.prev f).toNat = (r.totals f).toNat - (s.prev f).toNat := UInt64.toNat_sub_of_le _ _ hle
  have hge := UInt64.le_iff_toNat_le.mp hle
  have hsum : intervalSum f (s.reports ++ [⟨r.totals, fun f => r.totals f - s.prev f, r.start, r.stop⟩]) =
      (r.totals f).toNat := by
    rw [intervalSum_concat, h.sum]
    show _ + (r.totals f - s.prev f).toNat = _
    rw [hint]
    omega
  refine ⟨lastTotal_concat .., hsum, hhi.trans (total_mono hstop), ?_, ?_⟩
  · intro before line after e
    change s.reports ++ [_] = before ++ line :: after at e
    rcases List.eq_nil_or_concat after with rfl | ⟨after', last, rfl⟩
    · obtain ⟨rfl, hline⟩ := List.append_inj' e rfl
      obtain rfl := (List.cons.inj hline).1
      exact ⟨h.last ▸ hge, h.last ▸ hint, hsum, hlo, hhi⟩
    · rw [List.concat_eq_append, ← List.cons_append, ← List.append_assoc] at e
      exact h.lines before line after' (List.append_inj' e rfl).1
  · intro r' e
    cases e

theorem Reported.reporter (h : Reported numThreads f s) (hc : Counted numThreads workers s) (hf : f ∈ reporterFields)
    (hb : total numThreads s.added f < 2^64) (hst : reporterStep numThreads s = some t) : Reported numThreads f t := by
  have idle : ∀ p, (∀ r, p ≠ .reading r) → Reported numThreads f { s with reporter := p } := fun p hp =>
    ⟨h.last, h.sum, h.prev_le, h.lines, fun r e => absurd e (hp r)⟩
  unfold reporterStep at hst
  split at hst
  next =>
    cases hst
    exact idle _ (by intro r e; split at e <;> cases e)
  next =>
    cases hst
    split
    · refine ⟨h.last, h.sum, h.prev_le, h.lines, ?_⟩
      intro r e
      cases e
      exact ⟨Reading.good_begin s.added, fun _ => le_rfl, h.prev_le⟩
    · exact idle _ (by intro r e; cases e)
  next r hr =>
    split at hst
    next hl =>
      cases hst
      exact h.emit hf hr hl
    next c left hl =>
      cases hst
      obtain ⟨hgood, hstop, hp⟩ := h.reading r hr
      refine ⟨h.last, h.sum, h.prev_le, h.lines, ?_⟩
      intro r' e
      cases e
      exact ⟨hgood.load hl hf (by decide) hstop hc.cells hb, fun _ => le_rfl, hp⟩
  next => cases hst

theorem reported_step {a : Act} (h : Reported numThreads f s) (hc : Counted numThreads workers s)
    (hf : f ∈ reporterFields) (hb : total numThreads s.added f < 2^64)
    (hst : step numThreads workers s a = some t) : Reported numThreads f t := by
  have hadd := step_added hst
  cases a with
  | call w c =>
    obtain ⟨-, rfl⟩ := step_call hst
    exact h.frame rfl rfl rfl hadd
  | fetchAdd w =>
    obtain ⟨g, v, rest, -, rfl⟩ := step_fetchAdd hst
    exact h.frame rfl rfl rfl hadd
  | finish w =>
    obtain ⟨-, rfl⟩ := step_finish hst
    exact h.frame rfl rfl rfl hadd
  | reporter => exact h.reporter hc hf hb hst
  | main =>
    obtain ⟨⟨_, _, rfl⟩, -⟩ := main_frame hst
    exact h.frame rfl rfl rfl hadd

/-! ## the main thread -/

/-- after all workers have been joined no addition is left -/
theorem Counted.quiet (h : Counted numThreads workers s) (hm : s.main.joined workers = workers) (w : Nat) :
    s.todo w = [] := by
  by_contra hne
  obtain ⟨hw, hfin⟩ := h.busy w hne
  have hdone := h.joined w (by rw [hm]; exact hw)
  rw [hfin] at hdone
  cases hdone

/-- what the summary reads is what had been added when it began, and stays so -/
def Joined (numThreads : Nat) (f : Field) (s : St) : Prop :=
  match s.main with
  | .reading r => r.Good numThreads summaryFields f ∧ r.start = s.added ∧ r.stop = s.added
  | .printed totals => (totals f).toNat = total numThreads s.added f
  | _ => True

theorem joined_main (h : Joined numThreads f s) (hc : Counted numThreads workers s)
    (hb : total numThreads s.added f < 2^64) (hst : mainStep numThreads workers s = some t) :
    Joined numThreads f t := by
  have hf : f ∈ summaryFields := by cases f <;> decide
  unfold mainStep at hst
  split at hst
  next =>
    split at hst
    · split at hst
      · cases hst
        trivial
      · cases hst
    · cases hst
      trivial
  next =>
    split at hst
    · cases hst
      exact ⟨Reading.good_begin s.added, rfl, rfl⟩
    · cases hst
  next r hr =>
    unfold Joined at h
    rw [hr] at h
    obtain ⟨hgood, hstart, hstop⟩ := h
    split at hst
    next hl =>
      cases hst
      obtain ⟨hlo, hhi⟩ := hgood.done hl hf (by decide)
      rw [hstart] at hlo
      rw [hstop] at hhi
      exact le_antisymm hhi hlo
    next c left hl =>
      cases hst
      exact ⟨hgood.load hl hf (by decide) (fun c => by rw [hstop]) hc.cells hb, hstart, rfl⟩
  next => cases hst

theorem joined_step {a : Act} (h : Joined numThreads f s) (hc : Counted numThreads workers s)
    (hb : total numThreads s.added f < 2^64) (hst : step numThreads workers s a = some t) :
    Joined numThreads f t := by
  cases a with
  | call w c =>
    obtain ⟨-, rfl⟩ := step_call hst
    exact h
  | fetchAdd w =>
    obtain ⟨g, v, rest, htodo, rfl⟩ := step_fetchAdd hst
    -- the worker is in a call, so the main thread has not joined it yet
    have hlt : s.main.joined workers ≠ workers := by
      intro e
      rw [hc.quiet e w] at htodo
      cases htodo
    unfold Joined
    split
    next r hr => exact absurd (congrArg (Joiner.joined workers) hr) hlt
    next totals hr => exact absurd (congrArg (Joiner.joined workers) hr) hlt
    · trivial
  | finish w =>
    obtain ⟨-, rfl⟩ := step_finish hst
    exact h
  | reporter =>
    obtain ⟨_, _, _, rfl⟩ := reporter_frame hst
    exact h
  | main => exact joined_main h hc hb hst

/-! ## every run -/

theorem reach_exact (h : Reach (step numThreads workers) start s) :
    Counted numThreads workers s ∧ (total numThreads s.added f < 2^64 →
      (f ∈ reporterFields → Reported numThreads f s) ∧ Joined numThreads f s) := by
  refine h.inv (I := fun s => Counted numThreads workers s ∧ (total numThreads s.added f < 2^64 →
    (f ∈ reporterFields → Reported numThreads f s) ∧ Joined numThreads f s)) ?_ ?_
  · exact ⟨counted_start, fun _ => ⟨fun _ => reported_start, trivial⟩⟩
  · intro s a t ⟨hc, hex⟩ hst
    refine ⟨counted_step hc hst, fun hb => ?_⟩
    -- the totals only grow, so they fitted before the step as well
    have hb' : total numThreads s.added f < 2^64 := lt_of_le_of_lt (total_mono (step_added hst)) hb
    obtain ⟨hrep, hjoin⟩ := hex hb'
    exact ⟨fun hf => reported_step (hrep hf) hc hf hb' hst, joined_step hjoin hc hb' hst⟩

/-- after all workers have been joined every counter holds what the calls of its worker add up to -/
theorem Counted.total_eq (h : Counted numThreads workers s) (hm : s.main.joined workers = workers) :
    total numThreads s.added f = callTotal numThreads s.calls f := by
  rw [callTotal_eq]
  refine congrArg List.sum (List.map_congr_left ?_)
  intro w hw
  have howed := h.owed w (List.mem_range.mp hw) f
  rw [h.quiet hm w] at howed
  exact howed

/-- **The statistics are exact.**  In every run, with any number of workers, as long as the total of a field fits into
64 bits: each line of the reporter is exact, and the summary is the sum of what the calls of the counted threads add. -/
theorem stats_exact (numThreads workers : Nat) (s : St) (h : Reach (step numThreads workers) start s) (f : Field)
    (hb : total numThreads s.added f < 2^64) :
    (f ∈ reporterFields → ∀ before r after, s.reports = before ++ r :: after → r.Exact numThreads f before) ∧
    ∀ totals, s.main = .printed totals → (totals f).toNat = callTotal numThreads s.calls f := by
  obtain ⟨hc, hex⟩ := reach_exact (f := f) h
  obtain ⟨hrep, hjoin⟩ := hex hb
  refine ⟨fun hf => (hrep hf).lines, ?_⟩
  intro totals hm
  unfold Joined at hjoin
  rw [hm] at hjoin
  rw [hjoin, hc.total_eq (by rw [hm]; rfl)]

end

def Joiner.summary : Joiner → Option (Field → UInt64)
  | .printed totals => some totals
  | _ => none

theorem Joiner.printed_of_summary {main : Joiner} {totals : Field → UInt64} (h : main.summary = some totals) :
    main = .printed totals := by
  cases main with
  | printed t =>
    cases h
    rfl
  | _ => cases h

/-- two counted workers and one that is not, with additions between the loads of a read loop -/
def interleaved : List Act :=
  ([.call 0 (.addBytes 100 1), .fetchAdd 0, .reporter, .reporter, .reporter, .call 1 (.addBytes 50 1), .fetchAdd 1,
      .fetchAdd 0] : List Act)
    ++ List.replicate 6 Act.reporter ++ ([.fetchAdd 1, .call 2 .addError, .finish 0, .finish 1, .finish 2] : List Act)
    ++ List.replicate 4 Act.main ++ [Act.reporter] ++ List.replicate 10 Act.main

theorem stats_exact_interleaved : ∃ s totals line, Reach (step 2 3) start s ∧
    total 2 s.added .bytesTransferred < 2^64 ∧ s.reports = [line] ∧ line.Exact 2 .bytesTransferred [] ∧
    line.totals .bytesTransferred = 150 ∧ s.main = .printed totals ∧
    (totals .bytesTransferred).toNat = callTotal 2 s.calls .bytesTransferred ∧ totals .bytesTransferred = 150 := by
  have hrun : (runFrom (step 2 3) start interleaved).any (fun s =>
      decide (total 2 s.added .bytesTransferred < 2^64 ∧
        s.reports.map (fun r => r.totals .bytesTransferred) = [150] ∧
        s.main.summary.map (fun totals => totals .bytesTransferred) = some 150)) = true := by decide +kernel
  obtain ⟨s, hs, hall⟩ := (Option.any_eq_true _ _).mp hrun
  obtain ⟨hb, hrep, hmain⟩ := of_decide_eq_true hall
  have hreach : Reach (step 2 3) start s := Reach.of_runFrom _ hs
  obtain ⟨hlines, hprinted⟩ := stats_exact 2 3 s hreach .bytesTransferred hb
  obtain ⟨line, hline, h150⟩ := List.map_eq_singleton_iff.mp hrep
  obtain ⟨totals, htot, hsum⟩ := Option.map_eq_some_iff.mp hmain
  have hm := Joiner.printed_of_summary htot
  exact ⟨s, totals, line, hreach, hb, hline, hlines (by decide) [] line [] hline, h150, hm, hprinted totals hm, hsum⟩

end Stats
end UringPerf
