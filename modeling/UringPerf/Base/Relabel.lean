import UringPerf.Base.Single

/-!
# Entries under another name

A queue whose entries carry more than another one's: `IoRing.map f` forgets the rest.  Every operation of the
queue commutes with it, so that a system with the larger entries simulates one with the smaller entries.
-/

namespace Uring
namespace IoRing

section
variable {ε δ : Type*}

theorem eq_of_fields {r r' : IoRing ε} (h1 : r.cap = r'.cap) (h2 : r.sqpoll = r'.sqpoll) (h3 : r.sq = r'.sq)
    (h4 : r.pub = r'.pub) (h5 : r.kern = r'.kern) (h6 : r.cq = r'.cq) (h7 : r.nulls = r'.nulls) : r = r' := by
  cases r
  cases r'
  cases h1
  cases h2
  cases h3
  cases h4
  cases h5
  cases h6
  cases h7
  rfl

/-- every entry `o` is replaced by `f o` -/
def map (f : ε → δ) (r : IoRing ε) : IoRing δ where
  cap := r.cap
  sqpoll := r.sqpoll
  sq := r.sq.map f
  pub := r.pub
  kern := r.kern.map fun p => ⟨f p.op, p.waiting⟩
  cq := r.cq.map fun c => ⟨c.toCompletion, f c.op⟩
  nulls := r.nulls
  sq_le := by rw [List.length_map]; exact r.sq_le
  pub_le := by rw [List.length_map]; exact r.pub_le
  pub_off := r.pub_off

variable (f : ε → δ) (r : IoRing ε)

theorem map_push (o : ε) : ((r.map f).push (f o)).2 = (r.push o).2.map f := by
  have hlen : (r.map f).sq.length = r.sq.length := List.length_map ..
  by_cases h : r.sq.length < r.cap
  · have h' : (r.map f).sq.length < (r.map f).cap := by rw [hlen]; exact h
    unfold push
    rw [dif_pos h, dif_pos h']
    exact eq_of_fields rfl rfl (by simp [map]) rfl rfl rfl rfl
  · have h' : ¬ (r.map f).sq.length < (r.map f).cap := by rw [hlen]; exact h
    unfold push
    rw [dif_neg h, dif_neg h']
    rfl

theorem map_pushAll (ops : List ε) : (r.map f).pushAll (ops.map f) = (r.pushAll ops).map f := by
  induction ops generalizing r with
  | nil => rfl
  | cons o ops ih =>
    rw [List.map_cons, pushAll_cons, pushAll_cons, map_push, ih]

theorem map_submit : (r.map f).submit = r.submit.map f := by
  by_cases h : r.sqpoll = true
  · have h' : (r.map f).sqpoll = true := h
    unfold submit
    rw [dif_pos h, dif_pos h']
    exact eq_of_fields rfl rfl rfl (List.length_map ..) rfl rfl rfl
  · have h' : ¬ (r.map f).sqpoll = true := h
    unfold submit
    rw [dif_neg h, dif_neg h']
    exact eq_of_fields rfl rfl rfl rfl (by simp [map]) rfl rfl

theorem map_seen : (r.map f).seen = r.seen.map f :=
  eq_of_fields rfl rfl rfl rfl rfl (List.map_tail ..).symm rfl

theorem map_kern_getElem? (i : Nat) :
    (r.map f).kern[i]? = r.kern[i]?.map fun p => ⟨f p.op, p.waiting⟩ := List.getElem?_map ..

theorem map_post {kind : δ → Kind} {r r' : IoRing ε} {i : Nat} {c : Completion}
    (h : r.post (kind ∘ f) i c = some r') : (r.map f).post kind i c = some (r'.map f) := by
  unfold post at h ⊢
  rw [map_kern_getElem?]
  cases hp : r.kern[i]? with
  | none =>
    rw [hp] at h
    cases h
  | some p =>
    rw [hp] at h
    rw [Option.map_some]
    dsimp only at h ⊢
    by_cases ha : (kind (f p.op)).allows p.waiting c = true
    · rw [if_pos ha]
      replace h := (if_pos ha).symm.trans h
      cases h
      congr 1
      refine eq_of_fields rfl rfl rfl rfl ?_ (by simp [map]) rfl
      simp only [Function.comp_apply]
      cases (kind (f p.op)).stays p.waiting c with
      | none =>
        show (r.kern.map _).eraseIdx i = (r.kern.eraseIdx i).map _
        rw [List.eraseIdx_map]
      | some w =>
        show (r.kern.map _).set i (⟨f p.op, w⟩ : Pending δ) = (r.kern.set i (⟨p.op, w⟩ : Pending ε)).map _
        rw [List.map_set]
    · replace h := (if_neg ha).symm.trans h
      cases h

end
end IoRing
end Uring
