import TracingHeap.Proofs.Trace.SharedView
import TracingHeap.Proofs.Heap.Settled

namespace TracingHeap

namespace Settled

variable {s : Schema} {v : Table} {ks : Clusters} {c : Cluster} {h r : Handle} {o : Object}
  (hv : Settled s v ks)
include hv

/-- The cluster of an object that may be claimed has a root that may be. -/
theorem rooted_of_owner (hh : v.Collectable h) (ho : v.get? h = some o) (hr : o.owner = some r) :
    v.Rooted r := by
  obtain ⟨c, hc, rfl, hm⟩ := hv.orderly.enrolled.listed h o r ho hr
  obtain ⟨q, hq, hroot, -⟩ := hv.orderly.enrolled.root c hc
  have hp := (hv.orderly.enrolled.pooled c hc h hm).symm.trans hh.2
  exact ⟨⟨⟨q, hq⟩, hp⟩, (Table.has_of_get? hq _).trans hroot⟩

theorem cluster_of_rooted (hr : v.Rooted r) : ∃ c ∈ ks.list, c.root = r := by
  obtain ⟨⟨⟨q, hq⟩, -⟩, hroot⟩ := hr
  exact hv.orderly.enrolled.registered r q hq ((Table.has_of_get? hq _).symm.trans hroot)

theorem collectable_of_mutables (hc : c ∈ ks.list) (hp : v.isPermanent c.root = false)
    (hm : h ∈ c.mutables) : v.Collectable h :=
  (hv.orderly.tracked c hc hp).mutables h hm

theorem rooted_of_referenced (hc : c ∈ ks.list) (hp : v.isPermanent c.root = false)
    (hr : r ∈ c.referenced) (hpr : v.isPermanent r = false) : v.Rooted r := by
  obtain ⟨d, hd, rfl⟩ := (hv.orderly.tracked c hc hp).referenced r hr
  obtain ⟨q, hq, hroot, -⟩ := hv.orderly.enrolled.root d hd
  exact ⟨⟨⟨q, hq⟩, hpr⟩, (Table.has_of_get? hq _).trans hroot⟩

end Settled

theorem orFault_ok {α : Type} {x : Except Failure α} {a : α} (h : orFault x = .ok a) : x = .ok a := by
  cases x with
  | error f => cases h
  | ok b =>
    cases h
    rfl

structure Tracer.Knows (tr : Tracer) (s : Schema) (keeping : Bool) (v : Table) (ks : Clusters) :
    Prop where
  schema : tr.schema = s
  keeping : tr.memberKeepsCluster = keeping
  clusters : ∀ c ∈ ks.list, v.isPermanent c.root = false → tr.clusters.get? c.root = some c

namespace Tracer

variable {tr tr' : Tracer} {s : Schema} {keeping : Bool} {v : Table} {ks : Clusters} {stock : Int}
  {m m' : Marking} {c : Cluster} {g h : Handle}
  (k : tr.Knows s keeping v ks) (k' : tr'.Knows s keeping v ks) (hv : Settled s v ks)
  (hord : s.Ordered)

abbrev BothAbreast (s : Schema) (v : Table) (ks : Clusters) (stock : Int)
    (found found' : List Handle × Marking) : Prop :=
  found'.1 = found.1 ∧ (∀ r ∈ found.1, v.Rooted r) ∧
    found.2.Abreast s v ks stock found'.2

section

variable {expand expand' : Handle → Marking → Except Fault Marking}
  (hexp : ∀ r m m', v.Rooted r → m.Abreast s v ks stock m' →
    Meets (Marking.Abreast s v ks stock) (expand r m) (expand' r m'))
include k k' hv hord hexp

theorem reachMember_abreast (hh : v.Collectable h) (b : m.Abreast s v ks stock m') :
    Meets (Marking.Abreast s v ks stock) (tr.reachMember expand h m)
      (tr'.reachMember expand' h m') := by
  have hs := hv.orderly.regular.toLayered
  obtain ⟨p, o, o', hp, ho, ho', hown, -, ht⟩ := b.table.twins hh
  have hset := b.setInCluster hs hord hh
  simp only [reachMember, ho, ho', ht.inCluster, ht.owner, hown, k.keeping, k'.keeping]
  split
  · exact .ok b
  · split
    · cases hr : p.owner with
      | none => exact .ok hset
      | some r =>
        have hroot := hv.rooted_of_owner hh hp hr
        obtain ⟨-, q, q', -, hq, hq', -, -, htr⟩ := hset.table.twins hroot.1
        simp only [hq, hq', htr.unreachable]
        split
        · exact hexp r _ _ hroot (hset.claim hs hord hroot.1)
        · exact .ok hset
    · exact .ok hset

theorem reachMutable_abreast (cluster : Handle) {found found' : List Handle × Marking}
    (hh : v.Collectable h) (b : BothAbreast s v ks stock found found') :
    Meets (BothAbreast s v ks stock) (tr.reachMutable expand cluster found h)
      (tr'.reachMutable expand' cluster found' h) := by
  have hs := hv.orderly.regular.toLayered
  obtain ⟨pending, m⟩ := found
  obtain ⟨pending', m'⟩ := found'
  obtain ⟨rfl, hpending, b⟩ := b
  dsimp only at hpending b
  obtain ⟨p, o, o', hp, ho, ho', -, hroot, ht⟩ := b.table.twins hh
  simp only [reachMutable, b.table.left.isPermanent, b.table.right.isPermanent, hh.2, ho, ho',
    ht.unreachable, ht.root, ht.owner, ht.inCluster, Bool.false_eq_true, if_false]
  have hclaim := b.claim hs hord hh
  split
  · split
    · rename_i hflag
      refine .ok ⟨rfl, fun r hr => ?_, hclaim⟩
      rcases List.mem_cons.mp hr with rfl | hr
      · exact ⟨hh, (Table.has_of_get? hp _).trans (hroot.symm.trans hflag)⟩
      · exact hpending r hr
    · exact .ok ⟨rfl, hpending, hclaim.reach hh⟩
  · split
    · exact (reachMember_abreast k k' hv hord hexp hh b).bind fun _ _ b' =>
        .ok ⟨rfl, hpending, b'⟩
    · exact .ok ⟨rfl, hpending, b⟩

end

include hv hord in
/-- A permanent root was claimed long before. -/
theorem reachCluster_abreast (tr tr' : Tracer) (cluster : Handle) {found found' : List Handle × Marking}
    (hc : c ∈ ks.list) (hp : v.isPermanent c.root = false) (hr : h ∈ c.referenced)
    (b : BothAbreast s v ks stock found found') :
    Meets (BothAbreast s v ks stock) (tr.reachCluster cluster found h)
      (tr'.reachCluster cluster found' h) := by
  have hs := hv.orderly.regular.toLayered
  obtain ⟨pending, m⟩ := found
  obtain ⟨pending', m'⟩ := found'
  obtain ⟨rfl, hpending, b⟩ := b
  dsimp only at hpending b
  unfold reachCluster
  cases hpr : v.isPermanent h with
  | true =>
    have hcalm := b.table.left.calm c hc hp h hr hpr
    have hcalm' := b.table.right.calm c hc hp h hr hpr
    cases ho : m.table.get? h with
    | none =>
      simp only [ho]
      exact .left_fails
    | some o =>
      cases ho' : m'.table.get? h with
      | none =>
        simp only [ho']
        exact .right_fails
      | some o' =>
        rw [Table.isUnreachable_of_get? ho] at hcalm
        rw [Table.isUnreachable_of_get? ho'] at hcalm'
        simp only [ho, ho', hcalm, hcalm', Bool.false_eq_true, if_false]
        exact .ok ⟨rfl, hpending, b⟩
  | false =>
    have hroot := hv.rooted_of_referenced hc hp hr hpr
    obtain ⟨-, o, o', -, ho, ho', -, -, ht⟩ := b.table.twins hroot.1
    simp only [ho, ho', ht.unreachable]
    split
    · refine .ok ⟨rfl, fun r hr => ?_, b.claim hs hord hroot.1⟩
      rcases List.mem_cons.mp hr with rfl | hr
      · exact hroot
      · exact hpending r hr
    · exact .ok ⟨rfl, hpending, b⟩

include k k' hv hord

/-- The pending clusters are expanded abreast. The induction is on the bound of the first trace. -/
theorem expandPending_abreast (fuel : Nat) : ∀ (fuel' : Nat) (pending : List Handle) {m m' : Marking},
    (∀ r ∈ pending, v.Rooted r) → m.Abreast s v ks stock m' →
      Meets (Marking.Abreast s v ks stock) (tr.expandPending fuel pending m)
        (tr'.expandPending fuel' pending m') := by
  induction fuel with
  | zero =>
    intro fuel' pending m m' hpending b
    cases pending with
    | nil =>
      rw [expandPending, expandPending]
      exact .ok b
    | cons current rest =>
      rw [expandPending]
      exact .left_fails
  | succ fuel ih =>
    intro fuel' pending m m' hpending b
    cases pending with
    | nil =>
      rw [expandPending, expandPending]
      exact .ok b
    | cons current pending =>
      cases fuel' with
      | zero =>
        rw [expandPending]
        exact .right_fails
      | succ fuel' =>
        have hroot := hpending current (List.mem_cons_self ..)
        obtain ⟨c, hc, rfl⟩ := hv.cluster_of_rooted hroot
        have hp := hroot.1.2
        have hexp : ∀ r (m m' : Marking), v.Rooted r → m.Abreast s v ks stock m' →
            Meets (Marking.Abreast s v ks stock)
              (do
                let m ← tr.expandPending fuel [r] { m with pool := m.pool.acquire }
                return { m with pool := m.pool.release })
              (do
                let m ← tr'.expandPending fuel' [r] { m' with pool := m'.pool.acquire }
                return { m with pool := m.pool.release }) := fun r m m' hr b =>
          (ih fuel' [r] (by simpa using hr) b.acquire).bind fun _ _ b' => .ok b'.release
        rw [expandPending, expandPending, k.clusters c hc hp, k'.clusters c hc hp]
        have hmutables := Meets.foldlM_same (R := BothAbreast s v ks stock) (l := c.mutables)
          (fun g hg _ _ => reachMutable_abreast (h := g) k k' hv hord hexp c.root
            (hv.collectable_of_mutables hc hp hg)) (a := (pending, m)) (b := (pending, m'))
          ⟨rfl, fun r hr => hpending r (List.mem_cons_of_mem _ hr), b⟩
        refine hmutables.bind fun found found' hfound => ?_
        have hreferenced := Meets.foldlM_same (R := BothAbreast s v ks stock) (l := c.referenced)
          (fun g hg _ _ => reachCluster_abreast (h := g) hv hord tr tr' c.root hc hp hg) hfound
        refine hreferenced.bind ?_
        rintro ⟨pending, m⟩ ⟨pending', m'⟩ ⟨rfl, hpending, b⟩
        exact ih fuel' pending' hpending b

theorem expand_abreast (r : Handle) (m m' : Marking) (hr : v.Rooted r)
    (b : m.Abreast s v ks stock m') :
    Meets (Marking.Abreast s v ks stock) (tr.expand r m) (tr'.expand r m') :=
  (expandPending_abreast k k' hv hord _ _ [r] (by simpa using hr) b.acquire).bind fun _ _ b' =>
    .ok b'.release

theorem followStrong_abreast {o o' : Object} (hg : v.Collectable g) (ho : m.table.get? g = some o)
    (ho' : m'.table.get? g = some o') (b : m.Abreast s v ks stock m') :
    Meets (Marking.Abreast s v ks stock) (tr.followStrong o m) (tr'.followStrong o' m') := by
  have hs := hv.orderly.regular.toLayered
  have hh := b.table.left.tidy.handle_eq ho
  have hh' := b.table.right.tidy.handle_eq ho'
  obtain ⟨p, q, q', hp, hq, hq', -, hroot, ht⟩ := b.table.twins hg
  rw [ho] at hq
  rw [ho'] at hq'
  cases hq
  cases hq'
  -- either trace may clear the other flag by itself
  have hquiet : ∀ {n : Marking} (x : Object), n.table.Shows s v ks →
      n.Still s (if x.has .noStrongReference then n.clearFlag g .noStrongReference else n) := by
    intro n x hn
    split
    · refine ⟨.modify ((hn.isPermanent g).trans hg.2) (fun _ => rfl)
        (fun q _ => .clearFlag q (.inr rfl)) fun q => ?_, rfl, rfl⟩
      simp
    · exact .refl n
  have hlast : ∀ n n' : Marking, n.Abreast s v ks stock n' → Meets (Marking.Abreast s v ks stock)
      (.ok (if o.has .noStrongReference then n.clearFlag g .noStrongReference else n))
      (.ok (if o'.has .noStrongReference then n'.clearFlag g .noStrongReference else n')) := by
    intro n n' b
    exact .ok (b.still hs hord (hquiet o b.table.left) (hquiet o' b.table.right))
  simp only [followStrong, hh, hh', ht.unreachable, ht.owner, ht.root, ht.inCluster]
  split
  · split
    · exact .left_fails
    · have hclear := b.clearFlag hs hord hg (.inl rfl)
      split
      · rename_i hflag
        refine (expand_abreast k k' hv hord g _ _ ⟨hg, ?_⟩ hclear).bind hlast
        exact (Table.has_of_get? hp _).trans (hroot.symm.trans hflag)
      · exact hlast _ _ (hclear.reach hg)
  · split
    · exact (reachMember_abreast k k' hv hord (expand_abreast k k' hv hord) hg b).bind hlast
    · exact hlast _ _ b

omit k k' hv hord in
/-- Nothing is claimed at a slot that leads a strong reference nowhere or holds a weak one. -/
theorem visit_still {o : Object} {n : Visit} (hp : m.table.isPermanent o.handle = false)
    (hnone : n.strength = .strong → ∀ g, ¬ m.table.Aims ⟨o.handle, n.address⟩ g)
    (hok : tr.visit o m n = .ok m') : m.Still s m' := by
  unfold visit at hok
  dsimp only at hok
  cases hslot : m.table.slotAt? ⟨o.handle, n.address⟩ with
  | none =>
    simp only [hslot] at hok
    cases hok
    exact .refl m
  | some slot =>
    simp only [hslot] at hok
    obtain ⟨⟨fate, m₁⟩, hfollow, hok⟩ := except_bind_ok hok
    unfold follow at hfollow
    cases slot with
    | none =>
      cases hfollow
      cases hok
      exact .refl m
    | some g =>
      dsimp only at hfollow
      split at hfollow
      · cases hfollow
        cases hok
        exact .refl m
      · rename_i hpg
        rw [Bool.not_eq_true] at hpg
        cases hg : m.table.get? g with
        | none =>
          simp only [hg] at hfollow
          cases hfollow
        | some target =>
          simp only [hg] at hfollow
          split at hfollow
          · rename_i hk
            cases hfollow
            cases hok
            refine ⟨.modify hp (fun _ => rfl) (fun q hq => ?_) fun _ => ⟨rfl, rfl⟩, rfl, rfl⟩
            have hheld : q.slot? n.address = some (some g) := by
              rwa [Table.slotAt?_eq hq] at hslot
            exact ⟨.clearSlot (fun hf => hf.clearSlot _) hheld ((Table.has_of_get? hg _).trans hk),
              rfl, fun _ _ _ _ => rfl, id, id⟩
          · rename_i hk
            rw [Bool.not_eq_true] at hk
            cases hs : n.strength with
            | weak =>
              simp only [hs] at hfollow
              cases hfollow
              cases hstay : target.isUnreachable || target.owner.isSome with
              | true =>
                simp only [hstay] at hok
                cases hok
                exact ⟨.refl _, rfl, rfl⟩
              | false =>
                simp only [hstay] at hok
                cases hok
                exact .refl m
            | strong => exact absurd ⟨hslot, hpg, target, hg, hk⟩ (hnone hs g)

omit k k' hv hord in
/-- A slot that leads a strong reference somewhere is looked at by following the reference. -/
theorem visit_aiming (tr : Tracer) {o : Object} {n : Visit} (hstrong : n.strength = .strong)
    (haim : m.table.Aims ⟨o.handle, n.address⟩ g) :
    ∃ target, m.table.get? g = some target ∧ tr.visit o m n = tr.followStrong target m := by
  obtain ⟨hslot, hp, target, ho, hk⟩ := haim
  refine ⟨target, ho, ?_⟩
  simp only [visit, follow, hslot, hp, ho, hk, hstrong, Bool.false_eq_true, if_false]
  cases tr.followStrong target m <;> rfl

/-- The same slot is looked at abreast. -/
theorem visit_abreast {o o' p : Object} {n n' : Visit} (hh : v.Collectable h)
    (hp : v.get? h = some p) (ho : o.handle = h) (ho' : o'.handle = h) (hn : n'.found = n.found)
    (hrep : s.Reports p n.address n.strength) (b : m.Abreast s v ks stock m') :
    Meets (Marking.Abreast s v ks stock) (tr.visit o m n) (tr'.visit o' m' n') := by
  have hs := hv.orderly.regular.toLayered
  obtain ⟨haddress, hstrength⟩ := Prod.mk.inj hn
  have haims : n.strength = .strong → ∀ g, (m.table.Aims ⟨h, n.address⟩ g ↔ v.Aims ⟨h, n.address⟩ g) ∧
      (m'.table.Aims ⟨h, n.address⟩ g ↔ v.Aims ⟨h, n.address⟩ g) := by
    intro hstrong g
    rw [hstrong] at hrep
    exact ⟨b.table.left.aims h p _ hh hp hrep g, b.table.right.aims h p _ hh hp hrep g⟩
  by_cases haim : n.strength = .strong ∧ ∃ g, v.Aims ⟨h, n.address⟩ g
  · obtain ⟨hstrong, g, hg⟩ := haim
    obtain ⟨hleft, hright⟩ := haims hstrong g
    obtain ⟨q, hq, hvisit⟩ := visit_aiming tr hstrong (ho ▸ hleft.mpr hg)
    obtain ⟨q', hq', hvisit'⟩ := visit_aiming (n := n') tr' (hstrength.trans hstrong)
      (by rw [ho', haddress]; exact hright.mpr hg)
    rw [hvisit, hvisit']
    exact followStrong_abreast k k' hv hord hg.collectable hq hq' b
  · rw [not_and, not_exists] at haim
    intro a a' ha ha'
    refine b.still hs hord (visit_still ?_ (fun hstrong g hg => ?_) ha)
      (visit_still ?_ (fun hstrong g hg => ?_) ha')
    · exact ho ▸ (b.table.left.isPermanent h).trans hh.2
    · rw [ho] at hg
      exact haim hstrong g ((haims hstrong g).1.mp hg)
    · exact ho' ▸ (b.table.right.isPermanent h).trans hh.2
    · rw [ho', haddress] at hg
      have hstrong := hstrength.symm.trans hstrong
      exact haim hstrong g ((haims hstrong g).2.mp hg)

/-- The same object is looked at abreast. -/
theorem process_abreast (hh : v.Collectable h) (b : m.Abreast s v ks stock m') :
    Meets (Marking.Abreast s v ks stock) (tr.process m h) (tr'.process m' h) := by
  have hs := hv.orderly.regular.toLayered
  obtain ⟨p, o, o', hp, ho, ho', -, hroot, ht⟩ := b.table.twins hh
  have hhandle := b.table.left.tidy.handle_eq ho
  have hhandle' := b.table.right.tidy.handle_eq ho'
  have hcounted := b.countScanned
  simp only [process, ho, ho', ht.root, ht.owner]
  split
  · rename_i hflag
    refine expand_abreast k k' hv hord h _ _ ⟨hh, ?_⟩ hcounted
    exact (Table.has_of_get? hp _).trans (hroot.symm.trans hflag)
  · split
    · exact reachMember_abreast k k' hv hord (expand_abreast k k' hv hord) hh hcounted
    · have hfit := b.table.left.fits h o hh ho
      obtain ⟨hclass, hlisted⟩ := b.table.left.listed h p o hh hp ho
      obtain ⟨-, hlisted'⟩ := b.table.right.listed h p o' hh hp ho'
      have hwalks : Meets (fun w w' : Walk => w'.visits.map Visit.found = w.visits.map Visit.found ∧
          ∀ n ∈ w.visits, s.Reports p n.address n.strength) (orFault (tr.schema.walk o))
          (orFault (tr'.schema.walk o')) := by
        rw [k.schema, k'.schema]
        intro w w' hw hw'
        have hwalk := hs.walk_listed hfit (orFault_ok hw)
        have hwalk' := hs.walk_listed (b.table.right.fits h o' hh ho') (orFault_ok hw')
        refine ⟨?_, fun n hn => ?_⟩
        · rw [hwalk.2, hwalk'.2, hlisted, hlisted']
        · exact (Schema.reports_of_visit (orFault_ok hw) hn).of_listed hs hfit
            (hv.orderly.fits h p hp) hclass.symm hlisted.symm
      refine hwalks.bind fun w w' hw => ?_
      obtain ⟨hsame, hreported⟩ := hw
      have hvisits : Meets (Marking.Abreast s v ks stock)
          (w.visits.foldlM (tr.visit o) m.countScanned)
          (w'.visits.foldlM (tr'.visit o') m'.countScanned) := by
        refine Meets.foldlM Visit.found hsame (fun n hn n' he m m' b => ?_) hcounted
        exact visit_abreast k k' hv hord hh hp hhandle hhandle' he (hreported n hn) b
      refine hvisits.bind fun n n' b => ?_
      cases w.fault with
      | some f => exact .left_fails
      | none =>
        cases w'.fault with
        | some f => exact .right_fails
        | none => exact .ok b

end Tracer

structure TraceState.Abreast (s : Schema) (v : Table) (ks : Clusters) (stock : Int)
    (st st' : TraceState) : Prop where
  table : Table.Abreast s v ks st.table st'.table
  pool : st.pool.Ahead stock st'.pool

namespace Tracer

variable {tr tr' : Tracer} {s : Schema} {keeping : Bool} {v : Table} {ks : Clusters} {stock : Int}
  {st st' : TraceState} {wave : List Handle}
  (k : tr.Knows s keeping v ks) (k' : tr'.Knows s keeping v ks) (hv : Settled s v ks)
  (hord : s.Ordered)
include k k' hv hord

/-- A wave taken by one task: what it claims is the next wave of both traces. -/
theorem serialWave_abreast (hwave : ∀ h ∈ wave, v.Collectable h)
    (b : st.Abreast s v ks stock st') :
    Meets (fun found found' : List Handle × TraceState => found'.1 = found.1 ∧
      (∀ h ∈ found.1, v.Collectable h) ∧ found.2.Abreast s v ks stock found'.2)
      (tr.serialWave wave st) (tr'.serialWave wave st') := by
  unfold serialWave
  cases houtputs : st.outputs with
  | nil => exact .left_fails
  | cons output rest =>
    cases houtputs' : st'.outputs with
    | nil => exact .right_fails
    | cons output' rest' =>
      have hstart : Marking.Abreast s v ks stock
          { table := st.table, pool := st.pool.acquire, output := { output with reached := #[] } }
          { table := st'.table, pool := st'.pool.acquire, output := { output' with reached := #[] } } :=
        ⟨b.table, rfl, fun h hh => absurd hh (Array.not_mem_empty h), b.pool.acquire⟩
      have hrun := Meets.foldlM_same (R := Marking.Abreast s v ks stock) (l := wave)
        (fun h hh _ _ b => process_abreast (h := h) k k' hv hord (hwave h hh) b) hstart
      refine Meets.bind hrun fun m m' b' => .ok ⟨?_, fun h hh => ?_, b'.table, b'.pool⟩
      · exact congrArg Array.toList b'.reached
      · exact b'.queued h (Array.mem_toList_iff.mp hh)

/-- Wave after wave without workers. The induction is on the bound of the first trace. -/
theorem waves_abreast {plan plan' : WavePlan} (hplan : plan.workers = none)
    (hplan' : plan'.workers = none) (fuel : Nat) : ∀ (fuel' : Nat) (wave : List Handle)
      {st st' : TraceState}, (∀ h ∈ wave, v.Collectable h) → st.Abreast s v ks stock st' →
        Meets (TraceState.Abreast s v ks stock) (tr.waves plan fuel wave st)
          (tr'.waves plan' fuel' wave st') := by
  induction fuel with
  | zero =>
    intro fuel' wave st st' hwave b
    cases wave with
    | nil =>
      rw [waves, waves]
      exact .ok ⟨b.table, b.pool.release⟩
    | cons h rest =>
      rw [waves]
      exact .left_fails
  | succ fuel ih =>
    intro fuel' wave st st' hwave b
    cases wave with
    | nil =>
      rw [waves, waves]
      exact .ok ⟨b.table, b.pool.release⟩
    | cons h rest =>
      cases fuel' with
      | zero =>
        rw [waves]
        exact .right_fails
      | succ fuel' =>
        rw [waves, waves]
        · have hcounted : TraceState.Abreast s v ks stock
              { st with tally := { st.tally with waves := st.tally.waves + 1 } }
              { st' with tally := { st'.tally with waves := st'.tally.waves + 1 } } :=
            ⟨b.table, b.pool⟩
          simp only [Tracer.wave, hplan, hplan']
          refine (serialWave_abreast k k' hv hord hwave hcounted).bind ?_
          rintro ⟨next, st⟩ ⟨next', st'⟩ ⟨rfl, hnext, b⟩
          exact ih fuel' next' hnext ⟨b.table, b.pool.release⟩
        · simp
        · simp

theorem trace_abreast {plan plan' : WavePlan} (hplan : plan.workers = none)
    (hplan' : plan'.workers = none) {frontier : List Handle} {t t' : Table} {pool pool' : ScratchPool}
    {tally tally' : Tally} (hfrontier : ∀ h ∈ frontier, v.Collectable h)
    (b : Table.Abreast s v ks t t') (hpool : pool.Ahead stock pool') :
    Meets (TraceState.Abreast s v ks stock) (tr.trace plan frontier t pool tally)
      (tr'.trace plan' frontier t' pool' tally') :=
  waves_abreast k k' hv hord hplan hplan' _ _ frontier hfrontier ⟨b, hpool⟩

end Tracer

end TracingHeap
