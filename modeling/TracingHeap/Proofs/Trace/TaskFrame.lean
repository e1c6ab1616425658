import TracingHeap.Proofs.Outcome
import TracingHeap.Marking.Wave

namespace TracingHeap

/-- Two calls that end in the same fault, or whose results `R` relates. -/
inductive Alongside {α β : Type} (R : α → β → Prop) : Except Fault α → Except Fault β → Prop where
  | fault (f : Fault) : Alongside R (.error f) (.error f)
  | ok {a : α} {b : β} (h : R a b) : Alongside R (.ok a) (.ok b)

namespace Alongside

variable {α β γ δ ι : Type} {R : α → β → Prop} {S : γ → δ → Prop}

theorem mono {S : α → β → Prop} {x : Except Fault α} {y : Except Fault β} (h : Alongside R x y)
    (hrs : ∀ a b, R a b → S a b) : Alongside S x y := by
  cases h with
  | fault f => exact .fault f
  | ok h => exact .ok (hrs _ _ h)

theorem bind {x : Except Fault α} {y : Except Fault β} {f : α → Except Fault γ}
    {g : β → Except Fault δ} (h : Alongside R x y) (hfg : ∀ a b, R a b → Alongside S (f a) (g b)) :
    Alongside S (x >>= f) (y >>= g) := by
  cases h with
  | fault f => exact .fault f
  | ok h => exact hfg _ _ h

/-- Where one call comes back, so does the other. -/
theorem forth {x : Except Fault α} {y : Except Fault β} (h : Alongside R x y) {a : α}
    (hx : x = .ok a) : ∃ b, y = .ok b ∧ R a b := by
  cases h with
  | fault f => cases hx
  | ok h =>
    cases hx
    exact ⟨_, rfl, h⟩

theorem foldlM {f : α → ι → Except Fault α} {g : β → ι → Except Fault β}
    (step : ∀ i a b, R a b → Alongside R (f a i) (g b i)) (l : List ι) {a : α} {b : β} (h : R a b) :
    Alongside R (l.foldlM f a) (l.foldlM g b) := by
  induction l generalizing a b with
  | nil => exact .ok h
  | cons i rest ih =>
    rw [List.foldlM_cons, List.foldlM_cons]
    exact (step i a b h).bind fun _ _ => ih

end Alongside

namespace TaskOutput

def join (a b : TaskOutput) : TaskOutput :=
  ⟨a.reached ++ b.reached, a.weak ++ b.weak, a.scanned + b.scanned⟩

@[simp] theorem join_empty (a : TaskOutput) : a.join .empty = a := by simp [join, empty]

@[simp] theorem empty_join (a : TaskOutput) : empty.join a = a := by simp [join, empty]

theorem join_assoc (a b c : TaskOutput) : (a.join b).join c = a.join (b.join c) := by
  simp [join, Nat.add_assoc]

end TaskOutput

/-- Two tasks stand side by side: over the same table, they have added the same to the outputs `a` and
`b` that they began with. -/
structure Marking.Beside (a b : TaskOutput) (m m' : Marking) : Prop where
  table : m'.table = m.table
  added : ∃ o, m.output = a.join o ∧ m'.output = b.join o

namespace Marking.Beside

variable {a b : TaskOutput} {m m' : Marking}

theorem start (t : Table) (p p' : ScratchPool) : Beside a b ⟨t, p, a⟩ ⟨t, p', b⟩ :=
  ⟨rfl, .empty, (a.join_empty).symm, (b.join_empty).symm⟩

theorem withPool (h : m.Beside a b m') (p p' : ScratchPool) :
    Beside a b { m with pool := p } { m' with pool := p' } := ⟨h.table, h.added⟩

theorem withTable (h : m.Beside a b m') (f : Table → Table) :
    Beside a b { m with table := f m.table } { m' with table := f m'.table } :=
  ⟨congrArg f h.table, h.added⟩

theorem setFlag (h : m.Beside a b m') (g : Handle) (f : Flag) :
    (m.setFlag g f).Beside a b (m'.setFlag g f) := h.withTable (·.setFlag g f)

theorem clearFlag (h : m.Beside a b m') (g : Handle) (f : Flag) :
    (m.clearFlag g f).Beside a b (m'.clearFlag g f) := h.withTable (·.clearFlag g f)

theorem claim (h : m.Beside a b m') (g : Handle) : (m.claim g).Beside a b (m'.claim g) :=
  (h.clearFlag g .unreachable).clearFlag g .noStrongReference

theorem reach (h : m.Beside a b m') (g : Handle) : (m.reach g).Beside a b (m'.reach g) := by
  obtain ⟨o, ha, hb⟩ := h.added
  refine ⟨h.table, { o with reached := o.reached.push g }, ?_, ?_⟩
  · simp [Marking.reach, ha, TaskOutput.join]
  · simp [Marking.reach, hb, TaskOutput.join]

theorem revisit (h : m.Beside a b m') (s : Site) : (m.revisit s).Beside a b (m'.revisit s) := by
  obtain ⟨o, ha, hb⟩ := h.added
  refine ⟨h.table, { o with weak := o.weak.push s }, ?_, ?_⟩
  · simp [Marking.revisit, ha, TaskOutput.join]
  · simp [Marking.revisit, hb, TaskOutput.join]

theorem countScanned (h : m.Beside a b m') : m.countScanned.Beside a b m'.countScanned := by
  obtain ⟨o, ha, hb⟩ := h.added
  refine ⟨h.table, { o with scanned := o.scanned + 1 }, ?_, ?_⟩
  · simp [Marking.countScanned, ha, TaskOutput.join, Nat.add_assoc]
  · simp [Marking.countScanned, hb, TaskOutput.join, Nat.add_assoc]

end Marking.Beside

namespace Tracer

variable {tr : Tracer} {a b : TaskOutput} {m m' : Marking} {h : Handle}

abbrev BothBeside (a b : TaskOutput) (found found' : List Handle × Marking) : Prop :=
  found'.1 = found.1 ∧ found.2.Beside a b found'.2

section

variable {expand expand' : Handle → Marking → Except Fault Marking}
  (hexp : ∀ r m m', m.Beside a b m' → Alongside (Marking.Beside a b) (expand r m) (expand' r m'))
include hexp

theorem reachMember_beside (hb : m.Beside a b m') :
    Alongside (Marking.Beside a b) (tr.reachMember expand h m) (tr.reachMember expand' h m') := by
  unfold reachMember
  rw [hb.table]
  cases m.table.get? h with
  | none => exact .ok hb
  | some o =>
    have hset := hb.setFlag h .reachableInCluster
    dsimp only
    split
    · exact .ok hb
    · split
      · cases o.owner with
        | none => exact .ok hset
        | some owner =>
          dsimp only
          rw [hset.table]
          cases (m.setFlag h .reachableInCluster).table.get? owner with
          | none => exact .fault _
          | some root =>
            dsimp only
            split
            · exact hexp owner _ _ (hset.claim owner)
            · exact .ok hset
      · exact .ok hset

theorem reachMutable_beside (tr : Tracer) (cluster h : Handle) {found found' : List Handle × Marking}
    (hb : BothBeside a b found found') :
    Alongside (BothBeside a b) (tr.reachMutable expand cluster found h)
      (tr.reachMutable expand' cluster found' h) := by
  obtain ⟨pending, m⟩ := found
  obtain ⟨pending', m'⟩ := found'
  obtain ⟨rfl, hb⟩ := hb
  unfold reachMutable
  dsimp only at hb ⊢
  rw [hb.table]
  split
  · exact .ok ⟨rfl, hb⟩
  · cases m.table.get? h with
    | none => exact .fault _
    | some o =>
      dsimp only
      split
      · split
        · exact .ok ⟨rfl, hb.claim h⟩
        · exact .ok ⟨rfl, (hb.claim h).reach h⟩
      · split
        · exact (reachMember_beside hexp hb).bind fun _ _ hb' => .ok ⟨rfl, hb'⟩
        · exact .ok ⟨rfl, hb⟩

end

theorem reachCluster_beside (tr : Tracer) (cluster h : Handle) {found found' : List Handle × Marking}
    (hb : BothBeside a b found found') :
    Alongside (BothBeside a b) (tr.reachCluster cluster found h)
      (tr.reachCluster cluster found' h) := by
  obtain ⟨pending, m⟩ := found
  obtain ⟨pending', m'⟩ := found'
  obtain ⟨rfl, hb⟩ := hb
  unfold reachCluster
  dsimp only at hb ⊢
  rw [hb.table]
  cases m.table.get? h with
  | none => exact .fault _
  | some root =>
    refine .ok ?_
    split
    · exact ⟨rfl, hb.claim h⟩
    · exact ⟨rfl, hb⟩

/-- The pending clusters are expanded side by side. -/
theorem expandPending_beside (tr : Tracer) (fuel : Nat) : ∀ (pending : List Handle) {m m' : Marking},
    m.Beside a b m' → Alongside (Marking.Beside a b) (tr.expandPending fuel pending m)
      (tr.expandPending fuel pending m') := by
  induction fuel with
  | zero =>
    intro pending m m' hb
    cases pending with
    | nil =>
      rw [expandPending, expandPending]
      exact .ok hb
    | cons current rest =>
      rw [expandPending, expandPending]
      exact .fault _
  | succ fuel ih =>
    intro pending m m' hb
    cases pending with
    | nil =>
      rw [expandPending, expandPending]
      exact .ok hb
    | cons current pending =>
      rw [expandPending, expandPending]
      cases tr.clusters.get? current with
      | none => exact .fault _
      | some c =>
        have hexp : ∀ r (m m' : Marking), m.Beside a b m' → Alongside (Marking.Beside a b)
            (do
              let m ← tr.expandPending fuel [r] { m with pool := m.pool.acquire }
              return { m with pool := m.pool.release })
            (do
              let m ← tr.expandPending fuel [r] { m' with pool := m'.pool.acquire }
              return { m with pool := m.pool.release }) := fun r m m' hb =>
          (ih [r] (hb.withPool _ _)).bind fun _ _ hb' => .ok (hb'.withPool _ _)
        dsimp only
        have hmutables := Alongside.foldlM (R := BothBeside a b) (fun g found found' hfound =>
          tr.reachMutable_beside hexp current g hfound) c.mutables
            (a := (pending, m)) (b := (pending, m')) ⟨rfl, hb⟩
        refine hmutables.bind fun found found' hfound => ?_
        have hreferenced := Alongside.foldlM (R := BothBeside a b) (fun g found found' hfound =>
          tr.reachCluster_beside current g hfound) c.referenced hfound
        refine hreferenced.bind ?_
        rintro ⟨pending, m⟩ ⟨pending', m'⟩ ⟨rfl, hb⟩
        exact ih pending' hb

theorem expand_beside (root : Handle) (hb : m.Beside a b m') :
    Alongside (Marking.Beside a b) (tr.expand root m) (tr.expand root m') := by
  have hcapacity : m'.table.capacity = m.table.capacity := by rw [hb.table]
  unfold expand
  rw [hcapacity]
  have hstart := hb.withPool m.pool.acquire m'.pool.acquire
  refine (tr.expandPending_beside _ [root] hstart).bind fun n n' hb' => ?_
  exact .ok (hb'.withPool _ _)

theorem followStrong_beside (target : Object) (hb : m.Beside a b m') :
    Alongside (Marking.Beside a b) (tr.followStrong target m) (tr.followStrong target m') := by
  have hlast : ∀ m m' : Marking, m.Beside a b m' → Alongside (Marking.Beside a b)
      (.ok (if target.has .noStrongReference then m.clearFlag target.handle .noStrongReference else m))
      (.ok (if target.has .noStrongReference then m'.clearFlag target.handle .noStrongReference
        else m')) := by
    intro m m' hb
    refine .ok ?_
    split
    · exact hb.clearFlag _ _
    · exact hb
  unfold followStrong
  dsimp only
  split
  · split
    · exact .fault _
    · have hclear := hb.clearFlag target.handle .unreachable
      split
      · exact (expand_beside target.handle hclear).bind hlast
      · exact hlast _ _ (hclear.reach target.handle)
  · split
    · exact (reachMember_beside (fun r _ _ => expand_beside r) hb).bind hlast
    · exact hlast _ _ hb

theorem follow_beside (holder : Option Object) (token : Option Nat) (slot : Slot) (s : Strength)
    (hb : m.Beside a b m') :
    Alongside (fun x y => y.1 = x.1 ∧ x.2.Beside a b y.2) (tr.follow holder token slot s m)
      (tr.follow holder token slot s m') := by
  unfold follow
  cases slot with
  | none => exact .ok ⟨rfl, hb⟩
  | some g =>
    dsimp only
    rw [hb.table]
    split
    · exact .ok ⟨rfl, hb⟩
    · cases m.table.get? g with
      | none => exact .fault _
      | some target =>
        dsimp only
        split
        · exact .ok ⟨rfl, hb⟩
        · cases s with
          | weak => exact .ok ⟨rfl, hb⟩
          | strong => exact (followStrong_beside target hb).bind fun _ _ hb' => .ok ⟨rfl, hb'⟩

theorem visit_beside (o : Object) (v : Visit) (hb : m.Beside a b m') :
    Alongside (Marking.Beside a b) (tr.visit o m v) (tr.visit o m' v) := by
  unfold visit
  rw [hb.table]
  dsimp only
  cases m.table.slotAt? ⟨o.handle, v.address⟩ with
  | none => exact .ok hb
  | some slot =>
    dsimp only
    refine (follow_beside (some o) (some v.token) slot v.strength hb).bind ?_
    rintro ⟨fate, m⟩ ⟨fate', m'⟩ ⟨rfl, hb⟩
    cases fate' with
    | keep => exact .ok hb
    | null => exact .ok (hb.withTable (·.clearSite ⟨o.handle, v.address⟩))
    | revisit => exact .ok (hb.revisit ⟨o.handle, v.address⟩)

/-- Two tasks that stand side by side look at an object, and stand side by side again. -/
theorem process_beside (tr : Tracer) (h : Handle) (hb : m.Beside a b m') :
    Alongside (Marking.Beside a b) (tr.process m h) (tr.process m' h) := by
  unfold process
  rw [hb.table]
  cases m.table.get? h with
  | none => exact .fault _
  | some o =>
    have hcounted := hb.countScanned
    dsimp only
    split
    · exact expand_beside h hcounted
    · split
      · exact reachMember_beside (fun r _ _ => expand_beside r) hcounted
      · cases orFault (tr.schema.walk o) with
        | error f => exact .fault f
        | ok w =>
          refine (Alongside.foldlM (fun v _ _ => visit_beside o v) w.visits hcounted).bind
            fun m₁ m₁' hb₁ => ?_
          cases w.fault with
          | some f => exact .fault f
          | none => exact .ok hb₁

end Tracer

end TracingHeap
